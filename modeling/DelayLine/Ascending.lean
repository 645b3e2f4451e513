/-!
# Collections in ascending order

A collection keeps at most one element of each rank, in strictly ascending order of rank. Main
statements: `find?_insert` and `find?_extend`, what insertions change, and `ext_mem`, two
collections with the same members are the same.
-/

namespace DelayLine

variable {α : Type} {rank : α → Nat}

/-- Elements in strictly ascending order of rank. -/
structure Ascending (α : Type) (rank : α → Nat) where
  toList : List α
  ascending : toList.Pairwise fun x y => rank x < rank y

namespace Ascending

@[ext] theorem ext {s t : Ascending α rank} (h : s.toList = t.toList) : s = t := by
  cases s
  cases t
  cases h
  rfl

instance [DecidableEq α] : DecidableEq (Ascending α rank) := fun _ _ =>
  decidable_of_iff _ ⟨ext, congrArg toList⟩

theorem nodup (s : Ascending α rank) : s.toList.Nodup :=
  s.ascending.imp fun h heq => by
    subst heq
    exact Nat.lt_irrefl _ h

def empty : Ascending α rank := ⟨[], .nil⟩

def size (s : Ascending α rank) : Nat := s.toList.length

def find? (s : Ascending α rank) (n : Nat) : Option α := s.toList.find? (rank · == n)

/-- Puts `x` at its place in an ascending list, instead of the element of the same rank. -/
def place (rank : α → Nat) (x : α) : List α → List α
  | [] => [x]
  | y :: ys =>
    if rank x < rank y then x :: y :: ys
    else if rank x = rank y then x :: ys
    else y :: place rank x ys

theorem mem_place {x y : α} {ys : List α} (h : y ∈ place rank x ys) : y = x ∨ y ∈ ys := by
  induction ys with
  | nil => exact .inl (List.mem_singleton.1 h)
  | cons z zs ih =>
    unfold place at h
    split at h
    · exact List.mem_cons.1 h
    split at h
    · exact (List.mem_cons.1 h).imp_right (List.mem_cons_of_mem _)
    · rcases List.mem_cons.1 h with rfl | h
      · exact .inr List.mem_cons_self
      · exact (ih h).imp_right (List.mem_cons_of_mem _)

theorem pairwise_place (x : α) {ys : List α} (h : ys.Pairwise fun x y => rank x < rank y) :
    (place rank x ys).Pairwise fun x y => rank x < rank y := by
  induction ys with
  | nil => exact List.pairwise_singleton _ _
  | cons y ys ih =>
    obtain ⟨hy, hys⟩ := List.pairwise_cons.1 h
    unfold place
    split
    · next hlt =>
      refine List.pairwise_cons.2 ⟨fun z hz => ?_, h⟩
      rcases List.mem_cons.1 hz with rfl | hz
      · exact hlt
      · exact Nat.lt_trans hlt (hy z hz)
    split
    · next heq => exact List.pairwise_cons.2 ⟨fun z hz => heq ▸ hy z hz, hys⟩
    · refine List.pairwise_cons.2 ⟨fun z hz => ?_, ih hys⟩
      rcases mem_place hz with rfl | hz
      · omega
      · exact hy z hz

/-- Adds an element, which replaces the one of the same rank. -/
def insert (s : Ascending α rank) (x : α) : Ascending α rank :=
  ⟨place rank x s.toList, pairwise_place x s.ascending⟩

def extend (s : Ascending α rank) (xs : List α) : Ascending α rank := xs.foldl insert s

/-- The collection of the last element of each rank. -/
def ofList (xs : List α) : Ascending α rank := empty.extend xs

@[simp] theorem extend_nil (s : Ascending α rank) : s.extend [] = s := rfl

@[simp] theorem extend_cons (s : Ascending α rank) (x : α) (xs : List α) :
    s.extend (x :: xs) = (s.insert x).extend xs := rfl

theorem extend_append (s : Ascending α rank) (xs ys : List α) :
    s.extend (xs ++ ys) = (s.extend xs).extend ys :=
  List.foldl_append

theorem mem_extend {s : Ascending α rank} {xs : List α} {x : α} (h : x ∈ (s.extend xs).toList) :
    x ∈ s.toList ∨ x ∈ xs := by
  induction xs generalizing s with
  | nil => exact .inl h
  | cons y ys ih =>
    rcases ih h with h | h
    · rcases mem_place h with rfl | h
      · exact .inr List.mem_cons_self
      · exact .inl h
    · exact .inr (List.mem_cons_of_mem _ h)

theorem place_eq_append {x : α} {ys : List α} (h : ∀ y ∈ ys, rank y < rank x) :
    place rank x ys = ys ++ [x] := by
  induction ys with
  | nil => rfl
  | cons y ys ih =>
    obtain ⟨hy, hys⟩ := List.forall_mem_cons.1 h
    rw [place, if_neg (Nat.lt_asymm hy), if_neg (Nat.ne_of_gt hy), ih hys, List.cons_append]

theorem toList_extend {s : Ascending α rank} {xs : List α}
    (h : (s.toList ++ xs).Pairwise fun x y => rank x < rank y) :
    (s.extend xs).toList = s.toList ++ xs := by
  induction xs generalizing s with
  | nil => rw [extend_nil, List.append_nil]
  | cons x xs ih =>
    have hx : (s.insert x).toList = s.toList ++ [x] :=
      place_eq_append fun y hy => (List.pairwise_append.1 h).2.2 y hy x List.mem_cons_self
    rw [List.append_cons, ← hx] at h
    rw [extend_cons, ih h, hx, List.append_assoc, List.singleton_append]

/-- A list that is in ascending order already is kept as it is. -/
theorem toList_ofList {xs : List α} (h : xs.Pairwise fun x y => rank x < rank y) :
    (ofList xs : Ascending α rank).toList = xs :=
  toList_extend h

theorem place_map {β : Type} {rank' : β → Nat} {f : α → β} {k : Nat}
    (h : ∀ x, rank' (f x) = k + rank x) (x : α) (ys : List α) :
    place rank' (f x) (ys.map f) = (place rank x ys).map f := by
  induction ys with
  | nil => rfl
  | cons y ys ih =>
    simp only [List.map_cons, place, h, ih, Nat.add_lt_add_iff_left, Nat.add_left_cancel_iff]
    split
    · rfl
    split <;> rfl

theorem toList_extend_map {β : Type} {rank' : β → Nat} {f : α → β} {k : Nat}
    (h : ∀ x, rank' (f x) = k + rank x) {s : Ascending α rank} {t : Ascending β rank'}
    (hst : t.toList = s.toList.map f) (xs : List α) :
    (t.extend (xs.map f)).toList = (s.extend xs).toList.map f := by
  induction xs generalizing s t with
  | nil => exact hst
  | cons x xs ih =>
    refine ih ?_
    calc place rank' (f x) t.toList
        = place rank' (f x) (s.toList.map f) := by rw [hst]
      _ = (place rank x s.toList).map f := place_map h x s.toList

/-- Elements are collected before or after they are mapped to others in the same order. -/
theorem toList_ofList_map {β : Type} {rank' : β → Nat} {f : α → β} {k : Nat}
    (h : ∀ x, rank' (f x) = k + rank x) (xs : List α) :
    (ofList (xs.map f) : Ascending β rank').toList = (ofList xs : Ascending α rank).toList.map f :=
  toList_extend_map h rfl xs

theorem find?_empty (n : Nat) : (empty : Ascending α rank).find? n = none := rfl

theorem find?_eq_some_iff {s : Ascending α rank} {n : Nat} {x : α} :
    s.find? n = some x ↔ x ∈ s.toList ∧ rank x = n := by
  obtain ⟨ys, h⟩ := s
  simp only [find?]
  induction ys with
  | nil => simp
  | cons y ys ih =>
    obtain ⟨hy, hys⟩ := List.pairwise_cons.1 h
    have ih := ih hys
    rw [List.find?_cons]
    split
    · next heq =>
      have heq : rank y = n := by simpa using heq
      constructor
      · rintro ⟨⟩
        exact ⟨List.mem_cons_self, heq⟩
      · rintro ⟨hx, hn⟩
        rcases List.mem_cons.1 hx with rfl | hx
        · rfl
        · have := hy x hx
          omega
    · next hne =>
      have hne : rank y ≠ n := by simpa using hne
      rw [ih, List.mem_cons]
      constructor
      · exact fun h => ⟨.inr h.1, h.2⟩
      · rintro ⟨rfl | hx, hn⟩
        · exact absurd hn hne
        · exact ⟨hx, hn⟩

theorem find?_insert (s : Ascending α rank) (x : α) (n : Nat) :
    (s.insert x).find? n = if rank x = n then some x else s.find? n := by
  obtain ⟨ys, h⟩ := s
  simp only [find?, insert]
  induction ys with
  | nil =>
    simp only [place, List.find?_cons, List.find?_nil]
    split <;> simp_all
  | cons y ys ih =>
    have ih := ih (List.pairwise_cons.1 h).2
    unfold place
    split
    · rw [List.find?_cons]
      split <;> simp_all
    split
    · next heq =>
      simp only [List.find?_cons, heq]
      split <;> simp_all
    · next hne =>
      simp only [List.find?_cons, ih]
      split
      · next hy =>
        have : rank y = n := by simpa using hy
        rw [if_neg (this ▸ hne)]
      · rfl

/-- The last of the elements of a rank is the one that counts. -/
theorem find?_extend (s : Ascending α rank) (xs : List α) (n : Nat) :
    (s.extend xs).find? n = (xs.reverse.find? (rank · == n)).or (s.find? n) := by
  induction xs generalizing s with
  | nil => rfl
  | cons x xs ih =>
    rw [extend_cons, ih, find?_insert, List.reverse_cons, List.find?_append, Option.or_assoc]
    congr 1
    by_cases hx : rank x = n <;> simp [hx]

theorem exists_mem_extend (s : Ascending α rank) {xs : List α} {x : α} (hx : x ∈ xs) :
    ∃ y ∈ (s.extend xs).toList, rank y = rank x := by
  rcases hf : (s.extend xs).find? (rank x) with _ | y
  · rw [find?_extend, Option.or_eq_none_iff] at hf
    have := List.find?_eq_none.1 hf.1 x (List.mem_reverse.2 hx)
    simp at this
  · exact ⟨y, find?_eq_some_iff.1 hf⟩

/-- What is collected of a list is the last element of each rank. -/
theorem mem_ofList_iff {xs : List α} {x : α} : x ∈ (ofList xs : Ascending α rank).toList ↔
    ∃ before after, xs = before ++ x :: after ∧ ∀ y ∈ after, rank y ≠ rank x := by
  have hfind : x ∈ (ofList xs : Ascending α rank).toList ↔
      xs.reverse.find? (rank · == rank x) = some x := by
    rw [← and_iff_left (a := x ∈ _) rfl, ← find?_eq_some_iff, ofList, find?_extend, find?_empty,
      Option.or_none]
  rw [hfind, List.find?_eq_some_iff_append]
  simp only [beq_self_eq_true, true_and]
  constructor
  · rintro ⟨after, before, hxs, hafter⟩
    refine ⟨before.reverse, after.reverse, ?_, fun y hy => ?_⟩
    · rw [← List.reverse_reverse xs, hxs]
      simp
    · simpa using hafter y (List.mem_reverse.1 hy)
  · rintro ⟨before, after, rfl, hafter⟩
    refine ⟨after.reverse, before.reverse, by simp, fun y hy => ?_⟩
    simpa using hafter y (List.mem_reverse.1 hy)

theorem find?_extend_eq_or (s : Ascending α rank) (xs : List α) (n : Nat) :
    (s.extend xs).find? n = ((ofList xs : Ascending α rank).find? n).or (s.find? n) := by
  rw [find?_extend, ofList, find?_extend, find?_empty, Option.or_none]

theorem ext_mem {s t : Ascending α rank} (h : ∀ x, x ∈ s.toList ↔ x ∈ t.toList) : s = t :=
  ext (List.Perm.eq_of_pairwise (fun _ _ _ _ hxy hyx => absurd hxy (Nat.lt_asymm hyx))
    s.ascending t.ascending ((List.perm_ext_iff_of_nodup s.nodup t.nodup).2 h))

end Ascending

end DelayLine
