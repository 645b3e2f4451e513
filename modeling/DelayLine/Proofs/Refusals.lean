import Mathlib.Data.List.Forall2
import DelayLine.Proofs.LastPair

/-!
# Where a reading ends

A line is accepted or it ends the reading, whatever its number is. So a content is read if all its
lines are accepted (`ofLines_eq_ok_iff`), and otherwise its first line that is not accepted is
reported (`rejected_eq_some_iff`). One more line that is accepted only moves the lines behind it
(`rejected_insert`).
-/

namespace DelayLine

/-- The line where the reading ended. -/
def Rejected.line {ε : Type} : Rejected ε → Nat
  | undecodable line => line
  | faulty line _ => line

namespace Reading

variable {α ε : Type} {read : Text → Except ε α} {first : Nat} {ls : List Bytes} {bytes : Bytes}
  {a : α} {e e' : Rejected ε}

/-- A line that ends the reading if it has the given number. -/
inductive Refuses (read : Text → Except ε α) (line : Nat) (bytes : Bytes) : Rejected ε → Prop
  | undecodable (h : Text.decode bytes = none) : Refuses read line bytes (.undecodable line)
  | faulty {t : Text} {fault : ε} (hd : Text.decode bytes = some t) (h : read t = .error fault) :
    Refuses read line bytes (.faulty line fault)

theorem exists_accepts_or_refuses (read : Text → Except ε α) (line : Nat) (bytes : Bytes) :
    (∃ a, Accepts read bytes a) ∨ ∃ e, Refuses read line bytes e := by
  rcases hd : Text.decode bytes with _ | t
  · exact .inr ⟨_, .undecodable hd⟩
  · rcases h : read t with fault | a
    · exact .inr ⟨_, .faulty hd h⟩
    · exact .inl ⟨a, t, hd, h⟩

theorem ofLines_cons_of_refuses (h : Refuses read first bytes e) (ls : List Bytes) :
    ofLines read first (bytes :: ls) = ⟨[], some e⟩ := by
  cases h with
  | undecodable hd => simp only [ofLines, hd]
  | faulty hd h => simp only [ofLines, hd, h]

theorem Refuses.eq (h : Refuses read first bytes e) (h' : Refuses read first bytes e') :
    e = e' := by
  have heq := (ofLines_cons_of_refuses h []).symm.trans (ofLines_cons_of_refuses h' [])
  simpa using heq

theorem Refuses.not_accepts (h : Refuses read first bytes e) : ¬Accepts read bytes a := by
  intro ha
  have heq := (ofLines_cons_of_refuses h []).symm.trans (ofLines_cons_of_accepts ha first [])
  simp at heq

theorem Refuses.line_eq (h : Refuses read first bytes e) : e.line = first := by
  cases h <;> rfl

theorem ofLines_eq_ok_iff {as : List α} :
    (ofLines read first ls).rejected = none ∧ (ofLines read first ls).entries.map Prod.snd = as ↔
      ls.Forall₂ (Accepts read) as := by
  induction ls generalizing first as with
  | nil => simp [ofLines, eq_comm]
  | cons bytes ls ih =>
    rw [List.forall₂_cons_left_iff]
    rcases exists_accepts_or_refuses read first bytes with ⟨a, ha⟩ | ⟨e, he⟩
    · rw [ofLines_cons_of_accepts ha]
      constructor
      · rintro ⟨hr, rfl⟩
        exact ⟨a, _, ha, ih.1 ⟨hr, rfl⟩, rfl⟩
      · rintro ⟨b, bs, hb, hbs, rfl⟩
        obtain rfl := ha.eq hb
        obtain ⟨hr, hvalues⟩ := ih.2 hbs
        exact ⟨hr, congrArg (a :: ·) hvalues⟩
    · rw [ofLines_cons_of_refuses he]
      refine iff_of_false (fun h => Option.some_ne_none e h.1) ?_
      rintro ⟨b, bs, hb, -⟩
      exact he.not_accepts hb

theorem rejected_eq_some_iff : (ofLines read first ls).rejected = some e ↔
    ∃ before bytes behind, ls = before ++ bytes :: behind ∧
      (∀ l ∈ before, ∃ a, Accepts read l a) ∧ Refuses read (first + before.length) bytes e := by
  induction ls generalizing first with
  | nil => simp [ofLines]
  | cons l ls ih =>
    rcases exists_accepts_or_refuses read first l with ⟨a, ha⟩ | ⟨e', he'⟩
    · rw [ofLines_cons_of_accepts ha, ih]
      constructor
      · rintro ⟨before, bytes, behind, rfl, hbefore, he⟩
        refine ⟨l :: before, bytes, behind, rfl, List.forall_mem_cons.2 ⟨⟨a, ha⟩, hbefore⟩, ?_⟩
        rwa [List.length_cons, ← Nat.add_assoc, Nat.add_right_comm]
      · rintro ⟨_ | ⟨l', before⟩, bytes, behind, hls, hbefore, he⟩
        · cases hls
          exact absurd ha he.not_accepts
        · cases hls
          refine ⟨before, bytes, behind, rfl, (List.forall_mem_cons.1 hbefore).2, ?_⟩
          rwa [List.length_cons, ← Nat.add_assoc, Nat.add_right_comm] at he
    · rw [ofLines_cons_of_refuses he']
      constructor
      · rintro h
        cases h
        exact ⟨[], l, ls, rfl, List.forall_mem_nil _, he'⟩
      · rintro ⟨_ | ⟨l', before⟩, bytes, behind, hls, hbefore, he⟩
        · cases hls
          exact congrArg some (he'.eq he)
        · cases hls
          obtain ⟨a, ha⟩ := hbefore l List.mem_cons_self
          exact absurd ha he'.not_accepts

theorem line_of_rejected (h : (ofLines read first ls).rejected = some e) :
    first ≤ e.line ∧ e.line < first + ls.length := by
  obtain ⟨before, bytes, behind, rfl, -, he⟩ := rejected_eq_some_iff.1 h
  rw [he.line_eq, List.length_append, List.length_cons]
  omega

/-- Behind lines that are all accepted, one more accepted line moves the others. -/
theorem ofLines_insert {before : List Bytes} (hr : (ofLines read first before).rejected = none)
    (h : Accepts read bytes a) (behind : List Bytes) :
    ofLines read first (before ++ bytes :: behind) =
      ⟨(ofLines read first before).entries ++ (first + before.length, a) ::
          ((ofLines read (first + before.length) behind).shift 1).entries,
        ((ofLines read (first + before.length) behind).shift 1).rejected⟩ := by
  rw [ofLines_append hr, ofLines_cons_of_accepts h, Nat.add_comm _ 1, ofLines_add]

/-- One more accepted line moves the rejected line if it stands before it. -/
theorem rejected_insert (h : Accepts read bytes a) (first : Nat) (before behind : List Bytes) :
    (ofLines read first (before ++ bytes :: behind)).rejected =
      (ofLines read first (before ++ behind)).rejected.map fun e =>
        if e.line < first + before.length then e else e.shift 1 := by
  rcases hr : (ofLines read first before).rejected with _ | e
  · rw [ofLines_insert hr h, ofLines_append hr]
    refine Option.map_congr fun e he => ?_
    exact (if_neg (Nat.not_lt.2 (line_of_rejected he).1)).symm
  · have hne : (ofLines read first before).rejected ≠ none := hr ▸ Option.some_ne_none e
    rw [ofLines_append_of_rejected _ hne, ofLines_append_of_rejected _ hne, hr, Option.map_some,
      if_pos (line_of_rejected hr).2]

/-- One more line that is accepted without a value. -/
theorem values_insert {read : Text → Except ε (Option α)} (h : Accepts read bytes none)
    (first : Nat) (before behind : List Bytes) :
    ((ofLines read first (before ++ bytes :: behind)).entries.map Prod.snd).filterMap id =
      ((ofLines read first (before ++ behind)).entries.map Prod.snd).filterMap id := by
  by_cases hr : (ofLines read first before).rejected = none
  · rw [ofLines_insert hr h, ofLines_append hr]
    simp [shift]
  · rw [ofLines_append_of_rejected _ hr, ofLines_append_of_rejected _ hr]

end Reading

end DelayLine
