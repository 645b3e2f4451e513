import DelayLine.Text.Basic

/-!
# Lines

A line ends at a line feed, and a carriage return right before the line feed belongs to the end of
the line. What stands behind the last line feed is a line of its own unless it is empty. Main
statements: `lines_append`, the lines of two contents put together, where the first ends in a line
feed, and `lines_encode_flatMap`, lines that were written are the lines read.
-/

namespace DelayLine.Text

/-- Drops one carriage return at the end of a line. -/
def dropReturn (line : Bytes) : Bytes :=
  if line.getLast? = some 13 then line.dropLast else line

/-- The lines of pieces that stood between line feeds. -/
def linesOfPieces : List Bytes → List Bytes
  | [] => []
  | [[]] => []
  | [last] => [last]
  | piece :: pieces => dropReturn piece :: linesOfPieces pieces

def lines (content : Bytes) : List Bytes := linesOfPieces (content.splitOn 10)

@[simp] theorem lines_nil : lines [] = [] := rfl

theorem linesOfPieces_append (ps : List Bytes) {qs : List Bytes} (h : qs ≠ []) :
    linesOfPieces (ps ++ qs) = ps.map dropReturn ++ linesOfPieces qs := by
  induction ps with
  | nil => rfl
  | cons p ps ih =>
    have hne : ps ++ qs ≠ [] := by simp [h]
    obtain ⟨r, rs, hr⟩ := List.exists_cons_of_ne_nil hne
    rw [List.cons_append, hr, linesOfPieces, ← hr, ih, List.map_cons, List.cons_append]
    all_goals simp

theorem lines_append_feed (a b : Bytes) :
    lines (a ++ 10 :: b) = (a.splitOn 10).map dropReturn ++ lines b := by
  unfold lines
  rw [List.splitOn_append_cons_self]
  exact linesOfPieces_append _ (List.splitOn_ne_nil _ _)

theorem lines_append (a b : Bytes) :
    lines (a ++ [10] ++ b) = lines (a ++ [10]) ++ lines b := by
  rw [List.append_assoc, List.singleton_append, lines_append_feed, lines_append_feed, lines_nil,
    List.append_nil]

theorem length_splitOn (a : UInt8) (bytes : Bytes) :
    (bytes.splitOn a).length = bytes.count a + 1 := by
  induction bytes with
  | nil => rfl
  | cons b bytes ih =>
    rw [List.splitOn_cons_eq_if_modifyHead, List.count_cons]
    split <;> simp [ih]

theorem length_lines_append_feed (a : Bytes) : (lines (a ++ [10])).length = a.count 10 + 1 := by
  rw [lines_append_feed, lines_nil, List.append_nil, List.length_map, length_splitOn]

theorem dropReturn_of_not_mem {line : Bytes} (h : 13 ∉ line) : dropReturn line = line :=
  if_neg fun he => h (List.mem_of_getLast? he)

theorem lines_encode_flatMap {ts : List Text} (h : ∀ t ∈ ts, '\n' ∉ t ∧ '\r' ∉ t) :
    lines (encode (ts.flatMap fun t => t ++ ['\n'])) = ts.map encode := by
  induction ts with
  | nil => rfl
  | cons t ts ih =>
    obtain ⟨⟨hfeed, hreturn⟩, hts⟩ := List.forall_mem_cons.1 h
    have hfeed : 10 ∉ encode t := mt (mem_of_mem_encode (by decide)) hfeed
    have hreturn : 13 ∉ encode t := mt (mem_of_mem_encode (by decide)) hreturn
    have he : encode ['\n'] = [10] := rfl
    rw [List.flatMap_cons, encode_append, encode_append, he, List.append_assoc,
      List.singleton_append, lines_append_feed, List.splitOn_eq_singleton hfeed, ih hts,
      List.map_singleton, dropReturn_of_not_mem hreturn, List.singleton_append, List.map_cons]

end DelayLine.Text
