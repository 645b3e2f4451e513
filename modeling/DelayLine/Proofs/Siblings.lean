import Mathlib.Tactic.SplitIfs
import DelayLine.CounterFiles

/-!
# Files of one directory

Siblings are paths that differ in the last name only. A file that is created leaves its siblings as
they are: whether they have a place (`placeOf_put`) and what is read there (`read_put_of_ne`). So
files that are written in order, up to the first that has no place, hold their contents afterwards,
and the others are as they were (`saved_createAll`).
-/

namespace DelayLine.FileTree

/-- Two paths that differ in the last name only. -/
structure Siblings (p q : Text) : Prop where
  rooted : p.head? = some '/' ↔ q.head? = some '/'
  folder : (names p).dropLast = (names q).dropLast

/-- The last name of a path. -/
def lastName (path : Text) : Text := (names path).getLastD []

theorem names_eq (path : Text) : names path = (names path).dropLast ++ [lastName path] := by
  have h : names path ≠ [] := List.splitOn_ne_nil _ _
  rw [lastName, List.getLastD_eq_getLast?, List.getLast?_eq_some_getLast h, Option.getD_some,
    List.dropLast_concat_getLast h]

variable {t : FileTree} {p q : Text} {base place : Path} {content : Bytes}

theorem Siblings.symm (h : Siblings p q) : Siblings q p := ⟨h.rooted.symm, h.folder.symm⟩

theorem Siblings.start_eq (h : Siblings p q) (t : FileTree) : t.start p = t.start q := by
  unfold start
  simp only [h.rooted]

theorem Siblings.eq_of_lastName_eq (h : Siblings p q) (hn : lastName p = lastName q) : p = q := by
  have hnames : names p = names q := by rw [names_eq p, names_eq q, h.folder, hn]
  have := congrArg ['/'].intercalate hnames
  rwa [names, names, List.intercalate_splitOn, List.intercalate_splitOn] at this

/-- Names that lead from one place to another through directories. -/
inductive Leads (t : FileTree) : Path → List Text → Path → Prop
  | here (base : Path) : Leads t base [] base
  | stay {base r : Path} {name : Text} {rest : List Text} : name = [] ∨ name = ['.'] →
      Leads t base rest r → Leads t base (name :: rest) r
  | up {base r : Path} {rest : List Text} : Leads t base.dropLast rest r →
      Leads t base (['.', '.'] :: rest) r
  | down {base r : Path} {name : Text} {rest : List Text} : ¬(name = [] ∨ name = ['.']) →
      name ≠ ['.', '.'] → ¬nameLimit < (Text.encode name).length →
      t.find? (base ++ [name]) = some .directory → Leads t (base ++ [name]) rest r →
      Leads t base (name :: rest) r

theorem leads_of_follow {base r : Path} {ns : List Text} (h : t.follow base ns = .ok r)
    (hr : ∀ c, t.find? r ≠ some (.file c)) : t.Leads base ns r := by
  induction ns generalizing base with
  | nil =>
    cases h
    exact .here _
  | cons name rest ih =>
    rw [follow] at h
    split at h
    · next hstay => exact .stay hstay (ih h)
    next hstay =>
    split at h
    · next hup => exact hup ▸ .up (ih h)
    next hup =>
    split at h
    · cases h
    next hlong =>
    rcases hentry : t.find? (base ++ [name]) with _ | _ | c <;> rw [hentry] at h
    · cases h
    · exact .down hstay hup hlong hentry (ih h)
    · -- A file can only be the last, but what is reached is none.
      simp only at h
      split_ifs at h
      cases h
      exact absurd hentry (hr c)

theorem Leads.follow_append {base r : Path} {ns : List Text} (h : t.Leads base ns r)
    (ms : List Text) : t.follow base (ns ++ ms) = t.follow r ms := by
  induction h with
  | here => rfl
  | stay hstay _ ih => rw [List.cons_append, follow, if_pos hstay, ih]
  | up _ ih => rw [List.cons_append, follow, if_neg (by decide), if_pos rfl, ih]
  | down hstay hup hlong hdir _ ih =>
    rw [List.cons_append, follow, if_neg hstay, if_neg hup, if_neg hlong, hdir]
    exact ih

/-- A file in the place of no directory is not in the way. -/
theorem Leads.put {base r : Path} {ns : List Text} (h : t.Leads base ns r) (hne : place ≠ [])
    (hplace : t.find? place ≠ some .directory) :
    (t.put place (.file content)).Leads base ns r := by
  induction h with
  | here => exact .here _
  | stay hstay _ ih => exact .stay hstay ih
  | up _ ih => exact .up ih
  | down hstay hup hlong hdir _ ih =>
    refine .down hstay hup hlong ?_ ih
    rw [find?_put hne, if_neg, hdir]
    rintro rfl
    exact hplace hdir

/-! ## The folder of a path -/

/-- The names of a path before the last one lead to `base`, which is no file. -/
structure FolderOf (t : FileTree) (path : Text) (base : Path) : Prop where
  leads : t.Leads (t.start path) (names path).dropLast base
  no_file : ∀ c, t.find? base ≠ some (.file c)

/-- A name that is neither empty nor made of dots, and not too long. -/
structure Ordinary (name : Text) : Prop where
  not_dots : ¬(name = [] ∨ name = ['.'] ∨ name = ['.', '.'])
  length_le : (Text.encode name).length ≤ nameLimit

theorem FolderOf.sibling (h : t.FolderOf p base) (hpq : Siblings p q) : t.FolderOf q base :=
  ⟨hpq.start_eq t ▸ hpq.folder ▸ h.leads, h.no_file⟩

theorem FolderOf.follow (h : t.FolderOf p base) :
    t.follow (t.start p) (names p).dropLast = .ok base := by
  have := h.leads.follow_append []
  rwa [List.append_nil] at this

/-- The place of a name in a folder. -/
def placeIn (t : FileTree) (base : Path) (name : Text) : Except FileFault Path :=
  if name = [] ∨ name = ['.'] ∨ name = ['.', '.'] then throw .isDirectory
  else if nameLimit < (Text.encode name).length then throw .nameTooLong
  else if t.find? (base ++ [name]) = some .directory then throw .isDirectory
  else pure (base ++ [name])

theorem FolderOf.placeOf_eq (h : t.FolderOf p base) :
    t.placeOf p = (check p).bind fun _ => t.placeIn base (lastName p) := by
  simp only [placeOf, h.follow, bind, Except.bind]
  rcases hentry : t.find? base with _ | _ | c
  · rfl
  · rfl
  · exact absurd hentry (h.no_file c)

theorem exists_folderOf (h : t.placeOf p = .ok place) : ∃ base, t.FolderOf p base := by
  simp only [placeOf, bind, Except.bind] at h
  split at h
  · cases h
  split at h
  · cases h
  next base hf =>
  have hbase (c : Bytes) : t.find? base ≠ some (.file c) := fun hentry => by
    rw [hentry] at h
    cases h
  exact ⟨base, leads_of_follow hf hbase, hbase⟩

theorem placeIn_eq_ok_iff {name : Text} : t.placeIn base name = .ok place ↔
    Ordinary name ∧ t.find? place ≠ some .directory ∧ place = base ++ [name] := by
  unfold placeIn
  constructor
  · intro h
    split_ifs at h with hdots hlong hdir
    cases h
    exact ⟨⟨hdots, Nat.le_of_not_lt hlong⟩, hdir, rfl⟩
  · rintro ⟨hname, hdir, rfl⟩
    rw [if_neg hname.not_dots, if_neg (Nat.not_lt.2 hname.length_le), if_neg hdir]
    rfl

/-- A path has a place if its folder can be reached and its last name can be that of a file. -/
theorem placeOf_eq_ok_iff : t.placeOf p = .ok place ↔
    check p = .ok () ∧ Ordinary (lastName p) ∧ t.find? place ≠ some .directory ∧
      ∃ base, t.FolderOf p base ∧ place = base ++ [lastName p] := by
  constructor
  · intro h
    obtain ⟨base, hbase⟩ := exists_folderOf h
    rw [hbase.placeOf_eq] at h
    rcases hc : check p with e | ⟨⟩ <;> rw [hc] at h
    · cases h
    obtain ⟨hname, hdir, hplace⟩ := placeIn_eq_ok_iff.1 h
    exact ⟨rfl, hname, hdir, base, hbase, hplace⟩
  · rintro ⟨hc, hname, hdir, base, hbase, hplace⟩
    rw [hbase.placeOf_eq, hc]
    exact placeIn_eq_ok_iff.2 ⟨hname, hdir, hplace⟩

theorem ne_nil_of_placeOf (h : t.placeOf p = .ok place) : place ≠ [] := by
  obtain ⟨-, -, -, base, -, rfl⟩ := placeOf_eq_ok_iff.1 h
  simp

/-- What is at a place. -/
def entryAt (t : FileTree) (place : Path) : Except FileFault Entry :=
  (t.find? place).elim (throw .notFound) pure

theorem entryAt_put (hne : place ≠ []) (e : Entry) (r : Path) :
    (t.put place e).entryAt r = if r = place then .ok e else t.entryAt r := by
  rw [entryAt, find?_put hne]
  split <;> rfl

/-- What a name stands for in a folder. -/
def entryIn (t : FileTree) (base : Path) (name : Text) : Except FileFault Entry :=
  if name = [] ∨ name = ['.'] then t.entryAt base
  else if name = ['.', '.'] then t.entryAt base.dropLast
  else if nameLimit < (Text.encode name).length then throw .nameTooLong
  else t.entryAt (base ++ [name])

theorem FolderOf.openEntry_eq (h : t.FolderOf p base) :
    t.openEntry p = (check p).bind fun _ => t.entryIn base (lastName p) := by
  have hlast : (t.follow base [lastName p]).bind t.entryAt = t.entryIn base (lastName p) := by
    simp only [entryIn, FileTree.follow, reduceIte]
    split_ifs
    · rfl
    · rfl
    · rfl
    · rcases hentry : t.find? (base ++ [lastName p]) with _ | _ | c
      · rw [entryAt, hentry]
        rfl
      · rfl
      · rfl
  rw [openEntry, names_eq p, h.leads.follow_append, ← hlast]
  rfl

theorem entryIn_put_self {name : Text} (hname : Ordinary name) (e : Entry) :
    (t.put (base ++ [name]) e).entryIn base name = .ok e := by
  obtain ⟨hdots, hlong⟩ := hname
  rw [entryIn, if_neg fun h => hdots (h.imp_right .inl), if_neg fun h => hdots (.inr (.inr h)),
    if_neg (Nat.not_lt.2 hlong), entryAt_put (by simp), if_pos rfl]

theorem entryIn_put_of_ne {name other : Text} (h : other ≠ name) (e : Entry) :
    (t.put (base ++ [name]) e).entryIn base other = t.entryIn base other := by
  have hother : base ++ [other] ≠ base ++ [name] := by simpa using h
  have hbase : base ≠ base ++ [name] := by simp
  have hup : base.dropLast ≠ base ++ [name] := fun h => by
    have := congrArg List.length h
    simp at this
  simp only [entryIn, entryAt_put (show base ++ [name] ≠ [] by simp), if_neg hother, if_neg hbase,
    if_neg hup]

section Create

variable (h : t.placeOf p = .ok place)

include h

theorem FolderOf.put (hbase : t.FolderOf p base) :
    (t.put place (.file content)).FolderOf p base := by
  have hne := ne_nil_of_placeOf h
  obtain ⟨-, -, hdir, base', hbase', rfl⟩ := placeOf_eq_ok_iff.1 h
  cases hbase.follow.symm.trans hbase'.follow
  refine ⟨hbase.leads.put hne hdir, fun c => ?_⟩
  rw [find?_put hne, if_neg (by simp)]
  exact hbase.no_file c

theorem placeOf_put (hpq : Siblings p q) :
    (t.put place (.file content)).placeOf q = t.placeOf q := by
  obtain ⟨-, -, hdir, base, hbase, rfl⟩ := placeOf_eq_ok_iff.1 h
  rw [((hbase.put h).sibling hpq).placeOf_eq, (hbase.sibling hpq).placeOf_eq]
  have hsame : (t.put (base ++ [lastName p]) (.file content)).find? (base ++ [lastName q]) =
      some .directory ↔ t.find? (base ++ [lastName q]) = some .directory := by
    rw [find?_put (by simp)]
    split_ifs with heq
    · simp [heq, hdir]
    · rfl
  simp only [placeIn, hsame]

theorem read_put_self : (t.put place (.file content)).read p = .ok content := by
  obtain ⟨hc, hname, -, base, hbase, rfl⟩ := placeOf_eq_ok_iff.1 h
  rw [read, (hbase.put h).openEntry_eq, hc, Except.bind, entryIn_put_self hname]

theorem read_put_of_ne (hpq : Siblings p q) (hne : p ≠ q) :
    (t.put place (.file content)).read q = t.read q := by
  obtain ⟨-, -, -, base, hbase, rfl⟩ := placeOf_eq_ok_iff.1 h
  have hlast : lastName q ≠ lastName p := fun heq => hne (hpq.eq_of_lastName_eq heq.symm)
  rw [read, read, ((hbase.put h).sibling hpq).openEntry_eq, (hbase.sibling hpq).openEntry_eq,
    entryIn_put_of_ne hlast]

end Create

/-- What a tree `t` has become after files were written in order, up to the first that has no
place: each file before that one holds its content, the others are as they were. -/
inductive Saved (t t' : FileTree) : List (Text × Bytes) → Except PersistFault Unit → Prop
  | done : Saved t t' [] (.ok ())
  | write {path content place rest result} : t.placeOf path = .ok place →
      t'.read path = .ok content → Saved t t' rest result →
      Saved t t' ((path, content) :: rest) result
  | stop {path content cause rest} : t.placeOf path = .error cause →
      (∀ f ∈ (path, content) :: rest, t'.read f.1 = t.read f.1) →
      Saved t t' ((path, content) :: rest) (.error ⟨path, cause⟩)

variable {t' u u' : FileTree} {files : List (Text × Bytes)} {result : Except PersistFault Unit}

theorem Saved.result_eq_ok_iff (h : Saved t t' files result) :
    result = .ok () ↔ ∀ f ∈ files, ∃ place, t.placeOf f.1 = .ok place := by
  induction h with
  | done => simp
  | write hplace _ _ ih => rw [ih, List.forall_mem_cons, and_iff_right ⟨_, hplace⟩]
  | stop hplace => simp [hplace]

theorem Saved.unique {s : Except PersistFault Unit} (h : Saved t t' files result)
    (h' : Saved t u files s) : result = s ∧ ∀ f ∈ files, t'.read f.1 = u.read f.1 := by
  induction h with
  | done =>
    cases h'
    exact ⟨rfl, by simp⟩
  | write hplace hread _ ih =>
    cases h' with
    | write _ hread' hrest =>
      rw [List.forall_mem_cons, hread, hread']
      exact ⟨(ih hrest).1, rfl, (ih hrest).2⟩
    | stop hplace' => cases hplace.symm.trans hplace'
  | stop hplace hread =>
    cases h' with
    | write hplace' => cases hplace.symm.trans hplace'
    | stop hplace' hread' =>
      cases hplace.symm.trans hplace'
      exact ⟨rfl, fun f hf => (hread f hf).trans (hread' f hf).symm⟩

/-- Only the files themselves matter. -/
theorem Saved.congr (h : Saved t t' files result)
    (hplace : ∀ f ∈ files, u.placeOf f.1 = t.placeOf f.1)
    (hread : ∀ f ∈ files, u.read f.1 = t.read f.1)
    (hread' : ∀ f ∈ files, u'.read f.1 = t'.read f.1) : Saved u u' files result := by
  induction h with
  | done => exact .done
  | write hp hr _ ih =>
    rw [List.forall_mem_cons] at hplace hread hread'
    exact .write (hplace.1.trans hp) (hread'.1.trans hr) (ih hplace.2 hread.2 hread'.2)
  | stop hp hr =>
    refine .stop ((hplace _ List.mem_cons_self).trans hp) fun f hf => ?_
    rw [hread' f hf, hr f hf, hread f hf]

theorem createAll_cons (t : FileTree) (path : Text) (content : Bytes)
    (rest : List (Text × Bytes)) : t.createAll ((path, content) :: rest) =
      match t.placeOf path with
      | .error cause => (.error ⟨path, cause⟩, t)
      | .ok place => (t.put place (.file content)).createAll rest := by
  rw [createAll, create]
  cases t.placeOf path <;> rfl

theorem placeOf_createAll (h : ∀ f ∈ files, Siblings f.1 q) :
    (t.createAll files).2.placeOf q = t.placeOf q := by
  induction files generalizing t with
  | nil => rfl
  | cons f rest ih =>
    rw [List.forall_mem_cons] at h
    rw [createAll_cons]
    rcases hplace : t.placeOf f.1 with cause | place
    · rfl
    · exact (ih h.2).trans (placeOf_put hplace h.1)

theorem read_createAll (h : ∀ f ∈ files, Siblings f.1 q ∧ f.1 ≠ q) :
    (t.createAll files).2.read q = t.read q := by
  induction files generalizing t with
  | nil => rfl
  | cons f rest ih =>
    rw [List.forall_mem_cons] at h
    rw [createAll_cons]
    rcases hplace : t.placeOf f.1 with cause | place
    · rfl
    · exact (ih h.2).trans (read_put_of_ne hplace h.1.1 h.1.2)

/-- Nothing is written elsewhere. -/
theorem find?_createAll (h : files.Pairwise fun f g => Siblings f.1 g.1) {r : Path}
    (hr : ∀ f ∈ files, t.placeOf f.1 ≠ .ok r) : (t.createAll files).2.find? r = t.find? r := by
  induction files generalizing t with
  | nil => rfl
  | cons f rest ih =>
    rw [List.pairwise_cons] at h
    rw [List.forall_mem_cons] at hr
    rw [createAll_cons]
    rcases hplace : t.placeOf f.1 with cause | place
    · rfl
    · have hne : r ≠ place := fun heq => hr.1 (heq ▸ hplace)
      have hput := ih (t := t.put place (.file f.2)) h.2 fun g hg => by
        rw [placeOf_put hplace (h.1 g hg)]
        exact hr.2 g hg
      rw [hput, find?_put (ne_nil_of_placeOf hplace), if_neg hne]

theorem saved_createAll (h : files.Pairwise fun f g => Siblings f.1 g.1 ∧ f.1 ≠ g.1) :
    Saved t (t.createAll files).2 files (t.createAll files).1 := by
  induction files generalizing t with
  | nil => exact .done
  | cons f rest ih =>
    obtain ⟨hf, hrest⟩ := List.pairwise_cons.1 h
    rw [createAll_cons]
    rcases hplace : t.placeOf f.1 with cause | place
    · exact .stop hplace fun _ _ => rfl
    · refine .write hplace ?_ ((ih hrest).congr (fun g hg => ?_) (fun g hg => ?_) fun _ _ => rfl)
      · rw [read_createAll fun g hg => ⟨(hf g hg).1.symm, (hf g hg).2.symm⟩]
        exact read_put_self hplace
      · exact (placeOf_put hplace (hf g hg).1).symm
      · exact (read_put_of_ne hplace (hf g hg).1 (hf g hg).2).symm

end DelayLine.FileTree

namespace DelayLine.CounterFiles

open FileTree

/-! ## The counter files -/

/-- The part of a path behind the stem. -/
def suffix (d : Direction) (kind : CounterKind) : Text := '.' :: kind.name ++ '_' :: d.name

theorem path_eq (f : CounterFiles) (kind : CounterKind) :
    f.path kind = f.stem ++ suffix f.direction kind := by
  simp [path, suffix]

theorem slash_not_mem_suffix (d : Direction) (kind : CounterKind) : '/' ∉ suffix d kind := by
  cases d <;> cases kind <;> decide

theorem dropLast_names_append (s : Text) {u : Text} (hu : '/' ∉ u) :
    (names (s ++ u)).dropLast = (names s).dropLast := by
  induction s with
  | nil =>
    rw [names, List.nil_append, List.splitOn_eq_singleton hu]
    rfl
  | cons c s ih =>
    simp only [names, List.cons_append, List.splitOn_cons_eq_if_modifyHead] at ih ⊢
    split_ifs
    · rw [List.dropLast_cons_of_ne_nil (List.splitOn_ne_nil _ _), ih,
        List.dropLast_cons_of_ne_nil (List.splitOn_ne_nil _ _)]
    · have hdrop (f : Text → Text) (l : List Text) :
          (l.modifyHead f).dropLast = l.dropLast.modifyHead f := by
        rcases l with _ | ⟨x, _ | ⟨y, l⟩⟩ <;> rfl
      rw [hdrop, hdrop, ih]

theorem siblings_path (stem : Text) (d e : Direction) (k l : CounterKind) :
    Siblings (path ⟨stem, d⟩ k) (path ⟨stem, e⟩ l) := by
  rw [path_eq, path_eq]
  refine ⟨?_, ?_⟩
  · cases stem <;> rfl
  · rw [dropLast_names_append stem (slash_not_mem_suffix d k),
      dropLast_names_append stem (slash_not_mem_suffix e l)]

theorem dot_not_mem_tail_suffix (d : Direction) (kind : CounterKind) :
    '.' ∉ (suffix d kind).tail := by
  cases d <;> cases kind <;> decide

theorem suffix_injective {d e : Direction} {k l : CounterKind}
    (h : (suffix d k).tail = (suffix e l).tail) : d = e ∧ k = l := by
  revert h
  cases d <;> cases e <;> cases k <;> cases l <;> decide

/-- The dot in front of what is put behind a stem is the last one of the path, also if the stem has
dots of its own. -/
theorem path_inj {f g : CounterFiles} {k l : CounterKind} :
    f.path k = g.path l ↔ f = g ∧ k = l := by
  constructor
  · intro h
    rw [path_eq, path_eq] at h
    obtain ⟨hstem, htail⟩ := Text.append_cons_inj_right
      (dot_not_mem_tail_suffix f.direction k) (dot_not_mem_tail_suffix g.direction l) h
    obtain ⟨hdirection, hkind⟩ := suffix_injective htail
    obtain ⟨stem, d⟩ := f
    cases hstem
    cases hdirection
    exact ⟨rfl, hkind⟩
  · rintro ⟨rfl, rfl⟩
    rfl

end DelayLine.CounterFiles
