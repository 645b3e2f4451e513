/-!
# Text

Text is a list of characters, stored in files as UTF-8 and read field by field. Main statements:
`decode_encode`, what was stored is read back, and `fields_intercalate`, words that were written
with a space between them are the fields read.
-/

namespace DelayLine

abbrev Text := List Char

/-- The content of a file, or a packet, as a list of bytes. -/
abbrev Bytes := List UInt8

namespace Text

def encode (t : Text) : Bytes := t.flatMap String.utf8EncodeChar

/-- The text whose UTF-8 encoding is given, if there is one. -/
def decode (bytes : Bytes) : Option Text := bytes.toByteArray.utf8Decode?.map Array.toList

@[simp] theorem encode_append (s t : Text) : encode (s ++ t) = encode s ++ encode t :=
  List.flatMap_append

@[simp] theorem decode_encode (t : Text) : decode (encode t) = some t := by
  have h : (encode t).toByteArray = t.utf8Encode := rfl
  simp [decode, h]

theorem encode_injective {s t : Text} (h : encode s = encode t) : s = t := by
  have := congrArg decode h
  simpa using this

/-- A byte below 128 stands for a character of its own. -/
theorem mem_utf8EncodeChar_iff {b : UInt8} (hb : b < 128) {c : Char} :
    b ∈ String.utf8EncodeChar c ↔ c.toNat = b.toNat := by
  have hb : b.toNat < 128 := UInt8.lt_iff_toNat_lt.1 hb
  have hc : c.val.toNat = c.toNat := rfl
  simp only [String.utf8EncodeChar, hc]
  -- Every byte of a longer encoding is 128 or more.
  repeat' split
  all_goals
    simp only [List.mem_cons, List.not_mem_nil, or_false, ← UInt8.toNat_inj, UInt8.toNat_ofNat']
    omega

theorem mem_of_mem_encode {b : UInt8} (hb : b < 128) {t : Text} (h : b ∈ encode t) :
    Char.ofNat b.toNat ∈ t := by
  obtain ⟨c, hc, hbc⟩ := List.mem_flatMap.1 h
  rwa [← (mem_utf8EncodeChar_iff hb).1 hbc, Char.ofNat_toNat]

section Cutting

variable {a b s t : Text} {c : Char}

theorem append_cons_inj (ha : c ∉ a) (hb : c ∉ b) (h : a ++ c :: s = b ++ c :: t) :
    a = b ∧ s = t := by
  have hsplit := congrArg (List.splitOn c) h
  rw [List.splitOn_append_cons_self_of_not_mem ha, List.splitOn_append_cons_self_of_not_mem hb]
    at hsplit
  obtain ⟨rfl, -⟩ := List.cons.inj hsplit
  exact ⟨rfl, (List.cons.inj (List.append_cancel_left h)).2⟩

/-- A text is also cut at the last place of a character. -/
theorem append_cons_inj_right (hs : c ∉ s) (ht : c ∉ t) (h : a ++ c :: s = b ++ c :: t) :
    a = b ∧ s = t := by
  have hreverse := congrArg List.reverse h
  simp only [List.reverse_append, List.reverse_cons, List.append_assoc, List.singleton_append]
    at hreverse
  obtain ⟨hst, hab⟩ :=
    append_cons_inj (mt List.mem_reverse.1 hs) (mt List.mem_reverse.1 ht) hreverse
  exact ⟨List.reverse_inj.1 hab, List.reverse_inj.1 hst⟩

end Cutting

/-- White space, in the sense of the Unicode property `White_Space`. -/
def isBlank (c : Char) : Bool :=
  let n := c.toNat
  (9 ≤ n && n ≤ 13) || n == 0x20 || n == 0x85 || n == 0xA0 || n == 0x1680 ||
    (0x2000 ≤ n && n ≤ 0x200A) || n == 0x2028 || n == 0x2029 || n == 0x202F || n == 0x205F ||
    n == 0x3000

/-- The maximal runs of characters that are not white space. -/
def fields (t : Text) : List Text := (t.splitOnP isBlank).filter (· ≠ [])

/-- A text that is a field of its own. -/
structure IsWord (t : Text) : Prop where
  ne_nil : t ≠ []
  isBlank_eq_false : ∀ c ∈ t, isBlank c = false

theorem IsWord.not_mem {t : Text} (h : t.IsWord) {c : Char} (hc : isBlank c = true) : c ∉ t :=
  fun hm => Bool.false_ne_true (h.isBlank_eq_false c hm ▸ hc)

theorem isWord_append {s t : Text} (hs : s.IsWord) (ht : t.IsWord) : IsWord (s ++ t) where
  ne_nil := List.append_ne_nil_of_left_ne_nil hs.ne_nil t
  isBlank_eq_false := List.forall_mem_append.2 ⟨hs.isBlank_eq_false, ht.isBlank_eq_false⟩

theorem isWord_cons {c : Char} {t : Text} (hc : isBlank c = false) (ht : t.IsWord) :
    IsWord (c :: t) where
  ne_nil := List.cons_ne_nil c t
  isBlank_eq_false := List.forall_mem_cons.2 ⟨hc, ht.isBlank_eq_false⟩

theorem fields_append_space {w : Text} (hw : w.IsWord) (t : Text) :
    fields (w ++ ' ' :: t) = w :: fields t := by
  rw [fields, List.splitOnP_append_cons_of_forall_mem hw.isBlank_eq_false _ rfl,
    List.filter_cons_of_pos (by simpa using hw.ne_nil), fields]

theorem fields_of_isWord {w : Text} (hw : w.IsWord) : fields w = [w] := by
  rw [fields, List.splitOnP_eq_singleton hw.isBlank_eq_false,
    List.filter_cons_of_pos (by simpa using hw.ne_nil), List.filter_nil]

theorem fields_intercalate {ws : List Text} (h : ∀ w ∈ ws, IsWord w) :
    fields ([' '].intercalate ws) = ws := by
  induction ws with
  | nil => rfl
  | cons w ws ih =>
    obtain ⟨hw, hws⟩ := List.forall_mem_cons.1 h
    cases ws with
    | nil => rw [List.intercalate_singleton, fields_of_isWord hw]
    | cons v vs =>
      rw [List.intercalate_cons_cons, List.append_assoc, List.singleton_append,
        fields_append_space hw, ih hws]

theorem not_mem_intercalate {ws : List Text} (h : ∀ w ∈ ws, IsWord w) {c : Char}
    (hc : isBlank c = true) (hs : c ≠ ' ') : c ∉ [' '].intercalate ws := by
  induction ws with
  | nil => exact List.not_mem_nil
  | cons w ws ih =>
    obtain ⟨hw, hws⟩ := List.forall_mem_cons.1 h
    cases ws with
    | nil =>
      rw [List.intercalate_singleton]
      exact hw.not_mem hc
    | cons v vs =>
      rw [List.intercalate_cons_cons, List.mem_append, List.mem_append, List.mem_singleton]
      rintro ((hm | rfl) | hm)
      · exact hw.not_mem hc hm
      · exact hs rfl
      · exact ih hws hm

/-- The text pushed to the right end of a column of the given width. -/
def alignRight (width : Nat) (t : Text) : Text := t.leftpad width ' '

end Text

end DelayLine
