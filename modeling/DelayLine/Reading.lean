import DelayLine.Text.Lines

/-!
# Reading files line by line

Lines are read one after the other up to the first that is not text or has a fault. Main statements:
`ofLines_append`, reading on after lines that were all accepted, and `ofLines_add`, reading the same
lines further down in a file.
-/

namespace DelayLine

variable {α ε : Type}

theorem bind_eq_ok_iff {β : Type} {x : Except ε α} {f : α → Except ε β} {b : β} :
    x >>= f = .ok b ↔ ∃ a, x = .ok a ∧ f a = .ok b := by
  cases x <;> simp [bind, Except.bind]

/-- Why the reading ended early: the line, counted from 1, and what is wrong with it. -/
inductive Rejected (ε : Type) where
  | undecodable (line : Nat)
  | faulty (line : Nat) (fault : ε)
deriving DecidableEq, Repr

/-- The same rejection, `m` lines further down. -/
def Rejected.shift (m : Nat) : Rejected ε → Rejected ε
  | undecodable line => undecodable (m + line)
  | faulty line fault => faulty (m + line) fault

/-- What was read of each accepted line, with the number of the line, and why the reading ended
early. -/
structure Reading (α ε : Type) where
  entries : List (Nat × α)
  rejected : Option (Rejected ε)
deriving DecidableEq, Repr

namespace Reading

/-- Reads lines, the first of which has the given number. -/
def ofLines (read : Text → Except ε α) : Nat → List Bytes → Reading α ε
  | _, [] => ⟨[], none⟩
  | line, bytes :: rest =>
    match Text.decode bytes with
    | none => ⟨[], some (.undecodable line)⟩
    | some text =>
      match read text with
      | .error fault => ⟨[], some (.faulty line fault)⟩
      | .ok a =>
        let r := ofLines read (line + 1) rest
        ⟨(line, a) :: r.entries, r.rejected⟩

def ofContent (read : Text → Except ε α) (content : Bytes) : Reading α ε :=
  ofLines read 1 (Text.lines content)

/-- All that was read, if every line was accepted. -/
def values (r : Reading α ε) : Except (Rejected ε) (List α) :=
  r.rejected.elim (pure (r.entries.map Prod.snd)) throw

theorem map_values_eq_ok_iff {β : Type} {r : Reading α ε} {f : List α → β} {b : β} :
    r.values.map f = .ok b ↔ r.rejected = none ∧ f (r.entries.map Prod.snd) = b := by
  unfold values
  cases r.rejected <;> simp [Except.map, pure, Except.pure, throw, throwThe, MonadExceptOf.throw]

theorem map_values_eq_error_iff {β : Type} {r : Reading α ε} {f : List α → β} {e : Rejected ε} :
    r.values.map f = .error e ↔ r.rejected = some e := by
  unfold values
  cases r.rejected <;> simp [Except.map, pure, Except.pure, throw, throwThe, MonadExceptOf.throw]

theorem ofLines_append {read : Text → Except ε α} {line : Nat} {ls ms : List Bytes}
    (h : (ofLines read line ls).rejected = none) :
    ofLines read line (ls ++ ms) =
      ⟨(ofLines read line ls).entries ++ (ofLines read (line + ls.length) ms).entries,
        (ofLines read (line + ls.length) ms).rejected⟩ := by
  induction ls generalizing line with
  | nil => rfl
  | cons bytes rest ih =>
    simp only [List.cons_append, ofLines] at h ⊢
    split at h
    · simp at h
    split at h
    · simp at h
    · rw [ih h, List.length_cons, Nat.add_assoc, Nat.add_comm 1]
      rfl

/-- What follows the line where the reading ended makes no difference. -/
theorem ofLines_append_of_rejected {read : Text → Except ε α} {line : Nat} {ls : List Bytes}
    (ms : List Bytes) (h : (ofLines read line ls).rejected ≠ none) :
    ofLines read line (ls ++ ms) = ofLines read line ls := by
  induction ls generalizing line with
  | nil => simp [ofLines] at h
  | cons bytes rest ih =>
    simp only [List.cons_append, ofLines] at h ⊢
    split at h
    · rfl
    split at h
    · rfl
    · rw [ih h]

theorem exists_of_mem_entries {read : Text → Except ε α} {line : Nat} {ls : List Bytes}
    {entry : Nat × α} (h : entry ∈ (ofLines read line ls).entries) : ∃ t, read t = .ok entry.2 := by
  induction ls generalizing line with
  | nil => cases h
  | cons bytes rest ih =>
    simp only [ofLines] at h
    split at h
    · cases h
    split at h
    · cases h
    · next a ha =>
      rcases List.mem_cons.1 h with rfl | h
      · exact ⟨_, ha⟩
      · exact ih h

/-- The same reading, `m` lines further down. -/
def shift (m : Nat) (r : Reading α ε) : Reading α ε :=
  ⟨r.entries.map fun e => (m + e.1, e.2), r.rejected.map (Rejected.shift m)⟩

theorem ofLines_add (read : Text → Except ε α) (m line : Nat) (ls : List Bytes) :
    ofLines read (m + line) ls = (ofLines read line ls).shift m := by
  induction ls generalizing line with
  | nil => rfl
  | cons bytes rest ih =>
    simp only [ofLines]
    split
    · rfl
    split
    · rfl
    · rw [Nat.add_assoc, ih]
      rfl

/-- Lines that are all accepted give one entry each. -/
theorem ofLines_map {β : Type} {read : Text → Except ε α} {line : β → Bytes} {value : β → α}
    {xs : List β} (h : ∀ x ∈ xs, ∃ t, Text.decode (line x) = some t ∧ read t = .ok (value x))
    (first : Nat) :
    ofLines read first (xs.map line) =
      ⟨(xs.zipIdx first).map fun x => (x.2, value x.1), none⟩ := by
  induction xs generalizing first with
  | nil => rfl
  | cons x xs ih =>
    obtain ⟨⟨t, hd, hr⟩, hxs⟩ := List.forall_mem_cons.1 h
    simp only [List.map_cons, ofLines, hd, hr, ih hxs, List.zipIdx_cons]

end Reading

end DelayLine
