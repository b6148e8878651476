import LoopDirectives.Pragma.Text

/-!
# Chunks of a pragma

A pragma that is too long for a line is cut into chunks, each of which fits once it is introduced
and continued. Widths are counted in bytes of UTF-8. A cut falls before the last space that fits,
or else after the last comma, or else where the room ends; a chunk has at least one character.
-/

namespace LoopDirectives.Pragma

def width : List Char → Nat
  | [] => 0
  | c :: rest => c.utf8Size + width rest

/-- The bytes that introduce and continue a line, apart from the word that begins the pragma. -/
def overhead : Nat := 5

/-- The bytes that a chunk may take on a line of the given columns. -/
def budget (columns : Nat) (sentinel : String) : Nat :=
  max 1 (columns - (sentinel.utf8ByteSize + overhead))

/-- The number of characters at the front of the text that fit into the room. -/
def fitting (room : Nat) : List Char → Nat
  | [] => 0
  | c :: rest => if c.utf8Size ≤ room then fitting (room - c.utf8Size) rest + 1 else 0

/-- What fits into the room takes no more than the room. -/
theorem width_take_fitting_le (room : Nat) (text : List Char) :
    width (text.take (fitting room text)) ≤ room := by
  induction text generalizing room with
  | nil => simp [width]
  | cons c rest ih =>
    by_cases hfits : c.utf8Size ≤ room
    · have htail := ih (room - c.utf8Size)
      simp only [fitting, hfits, if_true, List.take_succ_cons, width]
      omega
    · simp [fitting, hfits, width]

/-- The number of characters before the cut in a text that does not fit into the room. -/
def cut (room : Nat) (text : List Char) : Nat :=
  let limit := max 1 (fitting room text)
  let window := text.take limit
  match (Text.lastIndexOf? ' ' window).filter (0 < ·) with
  | some space => space
  | none =>
    match Text.lastIndexOf? ',' window with
    | some comma => comma + 1
    | none => limit

theorem cut_pos (room : Nat) (text : List Char) : 0 < cut room text := by
  unfold cut
  dsimp only
  split
  · next space h => exact of_decide_eq_true (Option.filter_eq_some_iff.1 h).2
  · split
    · omega
    · omega

theorem length_trimStart_le (text : List Char) : (Text.trimStart text).length ≤ text.length :=
  (List.dropWhile_sublist _).length_le

def chunksOf (room : Nat) (text : List Char) : List (List Char) :=
  match text with
  | [] => []
  | c :: rest =>
    if room < width (c :: rest) then
      let place := cut room (c :: rest)
      Text.trimEnd ((c :: rest).take place) ::
        chunksOf room (Text.trimStart ((c :: rest).drop place))
    else [c :: rest]
termination_by text.length
decreasing_by
  have hcut := cut_pos room (c :: rest)
  have htrim := length_trimStart_le ((c :: rest).drop (cut room (c :: rest)))
  simp only [List.length_drop, List.length_cons] at htrim ⊢
  omega

/-- The chunks of a pragma, without its comment, for lines of the given columns. -/
def chunks (columns : Nat) (sentinel text : String) : List String :=
  (chunksOf (budget columns sentinel) (Text.trimBoth (dropComment text.toList))).map String.ofList

end LoopDirectives.Pragma
