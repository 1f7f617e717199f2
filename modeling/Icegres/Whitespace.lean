/-!
# White space

The standard library trims and splits text at the characters that Unicode calls white space.
-/

namespace Icegres

/-- The characters of the Unicode property White_Space. -/
def isWhitespace (char : Char) : Bool :=
  let code := char.toNat
  (0x09 ≤ code && code ≤ 0x0D) || (0x2000 ≤ code && code ≤ 0x200A) ||
    [0x20, 0x85, 0xA0, 0x1680, 0x2028, 0x2029, 0x202F, 0x205F, 0x3000].contains code

def trim (text : List Char) : List Char :=
  ((text.dropWhile isWhitespace).reverse.dropWhile isWhitespace).reverse

/-- The words of a text. -/
def splitWhitespace : List Char → List (List Char)
  | [] => []
  | char :: rest =>
    if isWhitespace char then
      splitWhitespace rest
    else
      match rest with
      | [] => [[char]]
      | next :: _ =>
        if isWhitespace next then
          [char] :: splitWhitespace rest
        else
          match splitWhitespace rest with
          | [] => [[char]]
          | word :: words => (char :: word) :: words

end Icegres
