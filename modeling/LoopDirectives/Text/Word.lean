import LoopDirectives.Text.Blank

/-!
# Words and pieces of a text

Cutting a text at characters of a class, and looking for one text inside another.
-/

namespace LoopDirectives.Text

/-- The text without a byte-order mark in front. -/
def dropMark : List Char → List Char
  | '\ufeff' :: rest => rest
  | text => text

/-- The first run of characters that are not white space, empty when there is none. -/
def firstWord (text : List Char) : List Char :=
  (trimStart text).takeWhile fun c => !isBlank c

/-- The pieces between the occurrences of a separator; a text without it is one piece. -/
def pieces (separator : Char) : List Char → List (List Char)
  | [] => [[]]
  | c :: rest =>
    if c = separator then [] :: pieces separator rest
    else
      match pieces separator rest with
      | [] => [[c]]
      | piece :: others => (c :: piece) :: others

/-- Whether `part` occurs in the text as a run of consecutive characters. -/
def occursIn (part : List Char) : List Char → Bool
  | [] => part.isEmpty
  | c :: rest => part.isPrefixOf (c :: rest) || occursIn part rest

/-- The text with every occurrence of `part`, found from the left, replaced by `replacement`. -/
def replaceAll (part replacement : List Char) (text : List Char) : List Char :=
  go 0 text
where
  /-- `skip` characters of an occurrence already replaced are still to be passed over. -/
  go (skip : Nat) : List Char → List Char
    | [] => []
    | c :: rest =>
      match skip with
      | skip + 1 => go skip rest
      | 0 =>
        if !part.isEmpty && part.isPrefixOf (c :: rest) then
          replacement ++ go (part.length - 1) rest
        else c :: go 0 rest

/-- The position of the last character equal to `c`. -/
def lastIndexOf? (c : Char) (text : List Char) : Option Nat :=
  match text.reverse.findIdx? (· == c) with
  | none => none
  | some fromEnd => some (text.length - 1 - fromEnd)

end LoopDirectives.Text
