import DelayLine.CountMaps
import DelayLine.Proofs.Lossless
import DelayLine.Proofs.Siblings

/-!
# What counter files tell

The path of a counter file tells the stem, the direction and the kind, since the last dot in it is
the one behind the stem (`path_inj`). The content of a file tells what it lists: the lines are found
again, and in a line the endpoint ends before the first space (`line_inj`). The line of a total has
no space, so it is not taken for the line of an endpoint.
-/

namespace DelayLine

theorem Endpoint.not_mem_render {c : Char} (hdigit : c.isDigit = false) (hdot : c ≠ '.')
    (hcolon : c ≠ ':') (e : Endpoint) : c ∉ e.render := by
  simp only [render, List.mem_append, List.mem_cons, not_or]
  exact ⟨Address.not_mem_render hdigit hdot _, hcolon, Numeral.not_mem_render hdigit _⟩

theorem Endpoint.render_injective {e f : Endpoint} (h : e.render = f.render) : e = f := by
  have hcolon := Address.not_mem_render (c := ':') rfl (by decide)
  obtain ⟨haddress, hport⟩ := Text.append_cons_inj (hcolon _) (hcolon _) h
  obtain ⟨address, port⟩ := e
  cases Address.render_injective haddress
  cases UInt16.toNat_inj.1 (Numeral.render_injective hport)
  rfl

namespace CounterFiles

/-- The line of an endpoint with its count. -/
def line (entry : Endpoint × UInt64) : Text :=
  entry.1.render ++ ' ' :: Numeral.render entry.2.toNat

theorem line_inj {x y : Endpoint × UInt64} : line x = line y ↔ x = y := by
  refine ⟨fun h => ?_, congrArg _⟩
  have hspace := Endpoint.not_mem_render (c := ' ') rfl (by decide) (by decide)
  obtain ⟨hendpoint, hcount⟩ := Text.append_cons_inj (hspace _) (hspace _) h
  exact Prod.ext (Endpoint.render_injective hendpoint)
    (UInt64.toNat_inj.1 (Numeral.render_injective hcount))

/-- What a counter file lists: a total, or endpoints with their counts. -/
inductive Listing
  | total (bytes : UInt64)
  | counts (entries : List (Endpoint × UInt64))
deriving DecidableEq

namespace Listing

def lines : Listing → List Text
  | total bytes => [Numeral.render bytes.toNat]
  | counts entries => entries.map line

theorem lines_total_ne (bytes : UInt64) (entries : List (Endpoint × UInt64)) :
    (total bytes).lines ≠ (counts entries).lines := by
  intro h
  have hmem : Numeral.render bytes.toNat ∈ (counts entries).lines := h ▸ List.mem_cons_self
  obtain ⟨x, -, hx⟩ := List.mem_map.1 hmem
  have hspace : ' ' ∈ line x := List.mem_append_right _ List.mem_cons_self
  exact Numeral.not_mem_render rfl _ (hx ▸ hspace)

theorem lines_inj {a b : Listing} : a.lines = b.lines ↔ a = b := by
  refine ⟨fun h => ?_, congrArg _⟩
  cases a with
  | total m =>
    cases b with
    | total n =>
      have hnumber := Numeral.render_injective (List.cons.inj h).1
      exact congrArg total (UInt64.toNat_inj.1 hnumber)
    | counts entries => exact absurd h (lines_total_ne m entries)
  | counts entries =>
    cases b with
    | total n => exact absurd h.symm (lines_total_ne n entries)
    | counts entries' =>
      exact congrArg counts (List.map_injective_iff.2 (fun _ _ => line_inj.1) h)

theorem not_mem_lines {c : Char} (hdigit : c.isDigit = false) (hdot : c ≠ '.') (hcolon : c ≠ ':')
    (hspace : c ≠ ' ') (a : Listing) : ∀ t ∈ a.lines, c ∉ t := by
  cases a with
  | total n => exact List.forall_mem_singleton.2 (Numeral.not_mem_render hdigit _)
  | counts entries =>
    simp only [lines, List.forall_mem_map, line, List.mem_append, List.mem_cons, not_or]
    exact fun x _ => ⟨Endpoint.not_mem_render hdigit hdot hcolon _, hspace,
      Numeral.not_mem_render hdigit _⟩

end Listing

/-- What the file of a kind lists. -/
def listing (total : UInt64) (counters : Counters) : CounterKind → Listing
  | .total => .total total
  | .bytes => .counts (counters.countMap Tally.bytes).toList
  | .packets => .counts (counters.countMap Tally.packets).toList

theorem renderBy_eq (count : Tally → UInt64) (counters : Counters) : counters.renderBy count =
    (Listing.counts (counters.countMap count).toList).lines.flatMap fun t => t ++ ['\n'] := by
  simp [Counters.renderBy, Listing.lines, Counters.toList_countMap, List.flatMap_map, line]

theorem text_eq (total : UInt64) (counters : Counters) (kind : CounterKind) :
    text total counters kind =
      (listing total counters kind).lines.flatMap fun t => t ++ ['\n'] := by
  cases kind with
  | total => simp [text, listing, Listing.lines]
  | bytes => exact renderBy_eq ..
  | packets => exact renderBy_eq ..

theorem lines_encode_text (total : UInt64) (counters : Counters) (kind : CounterKind) :
    Text.lines (Text.encode (text total counters kind)) =
      (listing total counters kind).lines.map Text.encode := by
  rw [text_eq, Text.lines_encode_flatMap]
  intro t ht
  exact ⟨Listing.not_mem_lines rfl (by decide) (by decide) (by decide) _ t ht,
    Listing.not_mem_lines rfl (by decide) (by decide) (by decide) _ t ht⟩

theorem text_encode_inj {total total' : UInt64} {counters counters' : Counters}
    {k l : CounterKind} :
    Text.encode (text total counters k) = Text.encode (text total' counters' l) ↔
      listing total counters k = listing total' counters' l := by
  constructor
  · intro h
    have hlines := congrArg Text.lines h
    rw [lines_encode_text, lines_encode_text] at hlines
    exact Listing.lines_inj.1 (List.map_injective_iff.2 (fun _ _ => Text.encode_injective) hlines)
  · intro h
    rw [text_eq, text_eq, h]

theorem map_fst_contents (f : CounterFiles) (total : UInt64) (counters : Counters) :
    (f.contents total counters).map Prod.fst = [.total, .bytes, .packets].map f.path := by
  rw [contents, List.map_map]
  rfl

theorem exists_mem_contents_iff {f g : CounterFiles} {total total' : UInt64}
    {counters counters' : Counters} :
    (∃ path ∈ (f.contents total counters).map Prod.fst,
      path ∈ (g.contents total' counters').map Prod.fst) ↔ f = g := by
  rw [map_fst_contents, map_fst_contents]
  constructor
  · rintro ⟨_, hf, hg⟩
    obtain ⟨k, -, rfl⟩ := List.mem_map.1 hf
    obtain ⟨l, -, h⟩ := List.mem_map.1 hg
    exact (path_inj.1 h).1.symm
  · rintro rfl
    exact ⟨f.path .total, List.mem_cons_self, List.mem_cons_self⟩

/-- The files of queues with other stems or directions are others, and those of one queue are three.
Files of the same bytes list the same. -/
theorem counter_files_told_apart :
    (∀ (f g : CounterFiles) (k l : CounterKind), f.path k = g.path l ↔
      f.stem = g.stem ∧ f.direction = g.direction ∧ k = l) ∧
    (∀ (f g : CounterFiles) (total total' : UInt64) (counters counters' : Counters),
      let paths := (f.contents total counters).map Prod.fst
      let others := (g.contents total' counters').map Prod.fst
      paths.Nodup ∧ ((∃ path ∈ paths, path ∈ others) ↔ f = g)) ∧
    ∀ (total total' : UInt64) (counters counters' : Counters) (k l : CounterKind),
      Text.encode (text total counters k) = Text.encode (text total' counters' l) ↔
        listing total counters k = listing total' counters' l := by
  refine ⟨fun f g k l => ?_, fun f g total total' counters counters' => ⟨?_, ?_⟩,
    fun _ _ _ _ _ _ => text_encode_inj⟩
  · rw [path_inj, CounterFiles.mk.injEq, and_assoc]
  · rw [map_fst_contents]
    exact List.Nodup.map (fun _ _ h => (path_inj.1 h).2) (by decide)
  · exact exists_mem_contents_iff

end CounterFiles

end DelayLine
