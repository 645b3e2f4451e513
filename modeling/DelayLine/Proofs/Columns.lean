import Mathlib.Data.List.Basic
import DelayLine.Reading
import DelayLine.Rule.Line

/-!
# What the columns of a line decide

Each column of a line takes some tokens and refuses the others, and what it says of a token depends
on the token alone. So a line with five, seven or nine columns is a rule if every column takes its
token, and otherwise the fault of the line is that of the leftmost column that refuses its token
(`faultOf?_ofTokens`). An accepted line says nothing but the values of its columns (`Says`).
-/

namespace DelayLine

section Faults

variable {α β ε : Type}

/-- What went wrong, if anything did. -/
def faultOf? : Except ε α → Option ε
  | .error e => some e
  | .ok _ => none

variable {x : Except ε α}

theorem faultOf?_eq_some_iff {e : ε} : faultOf? x = some e ↔ x = .error e := by
  cases x <;> simp [faultOf?]

theorem faultOf?_eq_none_iff : faultOf? x = none ↔ ∃ a, x = .ok a := by
  cases x <;> simp [faultOf?]

/-- Where the second fault does not depend on the first result, the first fault is the fault. -/
theorem faultOf?_bind {f : α → Except ε β} {second : Option ε} (h : ∀ a, faultOf? (f a) = second) :
    faultOf? (x >>= f) = (faultOf? x).or second := by
  cases x with
  | error e => rfl
  | ok a => exact h a

theorem elim_eq_ok_iff {o : Option α} {e : ε} {a : α} :
    o.elim (throw e) pure = (.ok a : Except ε α) ↔ o = some a := by
  cases o <;> simp [throw, throwThe, MonadExceptOf.throw, pure, Except.pure]

theorem elim_eq_error_iff {o : Option α} {e fault : ε} :
    o.elim (throw e) pure = (.error fault : Except ε α) ↔ o = none ∧ e = fault := by
  cases o <;> simp [throw, throwThe, MonadExceptOf.throw, pure, Except.pure]

theorem bind_eq_error_iff {f : α → Except ε β} {e : ε} :
    x >>= f = .error e ↔ x = .error e ∨ ∃ a, x = .ok a ∧ f a = .error e := by
  cases x <;> simp [bind, Except.bind]

theorem findSome?_cons_eq_or (f : α → Option β) (a : α) (as : List α) :
    (a :: as).findSome? f = (f a).or (as.findSome? f) := by
  rw [List.findSome?_cons]
  cases f a <;> rfl

end Faults

namespace Column

/-- The columns of a line from left to right. -/
def all : List Column :=
  [protocol, address, port, forwardDelay, reverseDelay, forwardThreshold, forwardAlternate,
    reverseThreshold, reverseAlternate]

/-- The tokens that a column takes: a number in the range of the column, an address, or, for a delay
or a byte count, a number of at most 64 bits or a binary64 number that is finite and not below
zero. -/
def Accepts : Column → Text → Prop
  | protocol, t => ∃ n, word? t = some n ∧ n.toNat ≤ 255
  | address, t => ∃ x, Address.parse? t = some x
  | port, t => ∃ n, word? t = some n ∧ n.toNat ≤ 65535
  | _, t => (∃ n, word? t = some n) ∨ ∃ x, nonneg? t = some x

/-- A column refuses a token that it cannot read, and one for a number outside its range. -/
inductive Refuses : Column → Text → LineFault → Prop
  | unreadableProtocol {t : Text} (h : word? t = none) : Refuses protocol t (.number protocol t)
  | largeProtocol {t : Text} {n : UInt64} (h : word? t = some n) (hn : 255 < n.toNat) :
      Refuses protocol t (.protocol n)
  | noAddress {t : Text} (h : Address.parse? t = none) : Refuses address t (.address t)
  | unreadablePort {t : Text} (h : word? t = none) : Refuses port t (.number port t)
  | largePort {t : Text} {n : UInt64} (h : word? t = some n) (hn : 65535 < n.toNat) :
      Refuses port t (.port n)
  | noAmount {c : Column} {t : Text} (hc : c ∉ [protocol, address, port]) (hw : word? t = none)
      (hf : nonneg? t = none) : Refuses c t (.number c t)

end Column

namespace DelayRule

variable {t : Text} {fault : LineFault} {c : Column}

section Ranged

variable {γ : Type} {bound : Nat} {narrow : UInt64 → γ} {large : UInt64 → LineFault}

theorem readRanged_eq_ok_iff {v : γ} :
    (readWord c t >>= fun n => if n.toNat < bound then pure (narrow n) else throw (large n)) =
        .ok v ↔
      ∃ n, word? t = some n ∧ n.toNat < bound ∧ narrow n = v := by
  simp only [readWord, bind_eq_ok_iff, elim_eq_ok_iff]
  refine exists_congr fun n => and_congr_right fun _ => ?_
  split
  · next h => simp [h, pure, Except.pure]
  · next h => simp [h, throw, throwThe, MonadExceptOf.throw]

theorem readRanged_eq_error_iff :
    (readWord c t >>= fun n => if n.toNat < bound then pure (narrow n) else throw (large n)) =
        .error fault ↔
      word? t = none ∧ .number c t = fault ∨
        ∃ n, word? t = some n ∧ bound ≤ n.toNat ∧ large n = fault := by
  simp only [readWord, bind_eq_error_iff, elim_eq_error_iff, elim_eq_ok_iff]
  refine or_congr_right (exists_congr fun n => and_congr_right fun _ => ?_)
  split
  · next h => simp [Nat.not_le.2 h, pure, Except.pure]
  · next h => simp [Nat.not_lt.1 h, throw, throwThe, MonadExceptOf.throw]

theorem faultOf?_readRanged_eq_none_iff : faultOf? (readWord c t >>= fun n =>
      if n.toNat < bound + 1 then pure (narrow n) else throw (large n)) = none ↔
    ∃ n, word? t = some n ∧ n.toNat ≤ bound := by
  simp only [faultOf?_eq_none_iff, readRanged_eq_ok_iff]
  exact ⟨fun ⟨_, n, hn, hlt, _⟩ => ⟨n, hn, Nat.le_of_lt_succ hlt⟩,
    fun ⟨n, hn, hle⟩ => ⟨_, n, hn, Nat.lt_succ_of_le hle, rfl⟩⟩

end Ranged

theorem readAmount_eq_ok_iff {n : UInt64} : readAmount c t = .ok n ↔ amount? t = some n :=
  elim_eq_ok_iff

theorem amount?_eq_none_iff : amount? t = none ↔ word? t = none ∧ nonneg? t = none := by
  simp [amount?]

end DelayRule

namespace Column

open DelayRule

/-- What is wrong with a token in a column. -/
def fault? : Column → Text → Option LineFault
  | protocol, t => faultOf? (readProtocol t)
  | address, t => faultOf? (readAddress t)
  | port, t => faultOf? (readPort t)
  | c, t => faultOf? (readAmount c t)

variable {c : Column} {t : Text} {fault : LineFault}

theorem faultOf?_readAmount_eq_none_iff :
    faultOf? (readAmount c t) = none ↔ (∃ n, word? t = some n) ∨ ∃ x, nonneg? t = some x := by
  simp only [faultOf?_eq_none_iff, readAmount_eq_ok_iff, ← Option.isSome_iff_exists,
    ← Option.ne_none_iff_isSome, ne_eq, amount?_eq_none_iff, not_and_or]

theorem faultOf?_readAmount_eq_some_iff : faultOf? (readAmount c t) = some fault ↔
    word? t = none ∧ nonneg? t = none ∧ .number c t = fault := by
  rw [faultOf?_eq_some_iff, readAmount, elim_eq_error_iff, amount?_eq_none_iff, and_assoc]

theorem fault?_eq_none_iff : c.fault? t = none ↔ c.Accepts t := by
  cases c with
  | protocol => exact faultOf?_readRanged_eq_none_iff
  | address => simp only [fault?, faultOf?_eq_none_iff, readAddress, elim_eq_ok_iff, Accepts]
  | port => exact faultOf?_readRanged_eq_none_iff
  | _ => exact faultOf?_readAmount_eq_none_iff

theorem fault?_eq_some_iff : c.fault? t = some fault ↔ c.Refuses t fault := by
  cases c with
  | protocol =>
    simp only [fault?, faultOf?_eq_some_iff, readProtocol, readRanged_eq_error_iff]
    constructor
    · rintro (⟨h, rfl⟩ | ⟨n, h, hn, rfl⟩)
      · exact .unreadableProtocol h
      · exact .largeProtocol h hn
    · rintro (h | ⟨h, hn⟩ | _ | _ | _ | ⟨hc, -, -⟩)
      · exact .inl ⟨h, rfl⟩
      · exact .inr ⟨_, h, hn, rfl⟩
      · simp at hc
  | address =>
    simp only [fault?, faultOf?_eq_some_iff, readAddress, elim_eq_error_iff]
    constructor
    · rintro ⟨h, rfl⟩
      exact .noAddress h
    · rintro (_ | _ | h | _ | _ | ⟨hc, -, -⟩)
      · exact ⟨h, rfl⟩
      · simp at hc
  | port =>
    simp only [fault?, faultOf?_eq_some_iff, readPort, readRanged_eq_error_iff]
    constructor
    · rintro (⟨h, rfl⟩ | ⟨n, h, hn, rfl⟩)
      · exact .unreadablePort h
      · exact .largePort h hn
    · rintro (_ | _ | _ | h | ⟨h, hn⟩ | ⟨hc, -, -⟩)
      · exact .inl ⟨h, rfl⟩
      · exact .inr ⟨_, h, hn, rfl⟩
      · simp at hc
  | _ =>
    refine faultOf?_readAmount_eq_some_iff.trans ⟨?_, ?_⟩
    · rintro ⟨hw, hf, rfl⟩
      exact .noAmount (by decide) hw hf
    · rintro (_ | _ | _ | _ | _ | ⟨-, hw, hf⟩)
      exact ⟨hw, hf, rfl⟩

end Column

namespace DelayRule

variable {tokens : List Text} {r : DelayRule} {o : Option Overruled}

theorem faultOf?_readConstant (p a o f b : Text) : faultOf? (readConstant p a o f b) =
    ([Column.protocol, .address, .port, .forwardDelay, .reverseDelay].zip [p, a, o, f, b]).findSome?
      fun x => x.1.fault? x.2 := by
  simp only [List.zip_cons_cons, List.zip_nil_left, findSome?_cons_eq_or, List.findSome?_nil]
  unfold readConstant
  exact faultOf?_bind fun _ => faultOf?_bind fun _ => faultOf?_bind fun _ => faultOf?_bind fun _ =>
    faultOf?_bind fun _ => rfl

theorem faultOf?_readForwardSwitch (t a : Text) : faultOf? (readForwardSwitch t a) =
    ([Column.forwardThreshold, .forwardAlternate].zip [t, a]).findSome?
      fun x => x.1.fault? x.2 := by
  simp only [List.zip_cons_cons, List.zip_nil_left, findSome?_cons_eq_or, List.findSome?_nil]
  exact faultOf?_bind fun _ => faultOf?_bind fun _ => rfl

theorem faultOf?_readReverseSwitch (t a : Text) : faultOf? (readReverseSwitch t a) =
    ([Column.reverseThreshold, .reverseAlternate].zip [t, a]).findSome?
      fun x => x.1.fault? x.2 := by
  simp only [List.zip_cons_cons, List.zip_nil_left, findSome?_cons_eq_or, List.findSome?_nil]
  exact faultOf?_bind fun _ => faultOf?_bind fun _ => rfl

theorem ofTokens_of_length_not_mem (h : tokens.length ∉ [5, 7, 9]) :
    ofTokens tokens = .error (.fieldCount tokens.length) := by
  unfold ofTokens
  split
  · exact absurd (by simp) h
  · exact absurd (by simp) h
  · exact absurd (by simp) h
  · rfl

/-- A list with the length of a line's layout has the columns of the layout. -/
theorem exists_eq_of_length (h : tokens.length ∈ [5, 7, 9]) :
    (∃ p a o f b, tokens = [p, a, o, f, b]) ∨ (∃ p a o f b t x, tokens = [p, a, o, f, b, t, x]) ∨
      ∃ p a o f b t x t' x', tokens = [p, a, o, f, b, t, x, t', x'] := by
  have h : tokens.length = 5 ∨ tokens.length = 7 ∨ tokens.length = 9 := by simpa using h
  rcases h with h | h | h
  · match tokens, h with
    | [p, a, o, f, b], _ => exact .inl ⟨p, a, o, f, b, rfl⟩
  · match tokens, h with
    | [p, a, o, f, b, t, x], _ => exact .inr (.inl ⟨p, a, o, f, b, t, x, rfl⟩)
  · match tokens, h with
    | [p, a, o, f, b, t, x, t', x'], _ =>
      exact .inr (.inr ⟨p, a, o, f, b, t, x, t', x', rfl⟩)

theorem faultOf?_ofTokens (h : tokens.length ∈ [5, 7, 9]) :
    faultOf? (ofTokens tokens) = (Column.all.zip tokens).findSome? fun x => x.1.fault? x.2 := by
  rcases exists_eq_of_length h with ⟨p, a, o, f, b, rfl⟩ | ⟨p, a, o, f, b, t, x, rfl⟩ |
    ⟨p, a, o, f, b, t, x, t', x', rfl⟩
  · calc faultOf? (ofTokens [p, a, o, f, b])
        = (faultOf? (readConstant p a o f b)).or none := faultOf?_bind fun _ => rfl
      _ = _ := by
        rw [faultOf?_readConstant, Option.or_none]
        rfl
  · calc faultOf? (ofTokens [p, a, o, f, b, t, x])
        = (faultOf? (readConstant p a o f b)).or ((faultOf? (readForwardSwitch t x)).or none) :=
          faultOf?_bind fun _ => faultOf?_bind fun _ => rfl
      _ = _ := by
        rw [faultOf?_readConstant, faultOf?_readForwardSwitch, Option.or_none,
          ← List.findSome?_append]
        rfl
  · calc faultOf? (ofTokens [p, a, o, f, b, t, x, t', x'])
        = (faultOf? (readConstant p a o f b)).or ((faultOf? (readForwardSwitch t x)).or
            ((faultOf? (readReverseSwitch t' x')).or none)) :=
          faultOf?_bind fun _ => faultOf?_bind fun _ => faultOf?_bind fun _ => rfl
      _ = _ := by
        rw [faultOf?_readConstant, faultOf?_readForwardSwitch, faultOf?_readReverseSwitch,
          Option.or_none, ← List.findSome?_append, ← List.findSome?_append]
        rfl

theorem exists_ofTokens_eq_ok_iff (h : tokens.length ∈ [5, 7, 9]) :
    (∃ r o, ofTokens tokens = .ok (r, o)) ↔ ∀ x ∈ Column.all.zip tokens, x.1.Accepts x.2 := by
  have hfault := faultOf?_eq_none_iff (x := ofTokens tokens)
  rw [faultOf?_ofTokens h, List.findSome?_eq_none_iff] at hfault
  simpa only [Prod.exists, Column.fault?_eq_none_iff] using hfault.symm

theorem ofTokens_eq_error_iff (h : tokens.length ∈ [5, 7, 9]) {fault : LineFault} :
    ofTokens tokens = .error fault ↔ ∃ before column token after,
      Column.all.zip tokens = before ++ (column, token) :: after ∧
      (∀ x ∈ before, x.1.Accepts x.2) ∧ column.Refuses token fault := by
  rw [← faultOf?_eq_some_iff, faultOf?_ofTokens h, List.findSome?_eq_some_iff]
  simp only [Prod.exists, Column.fault?_eq_none_iff, Column.fault?_eq_some_iff,
    and_comm (a := Column.Refuses ..)]

/-- What the columns of an accepted line say of its rule. -/
structure Says (tokens : List Text) (r : DelayRule) : Prop where
  protocol : (tokens[0]?.bind word?).map UInt64.toNat = some r.key.protocol.toNat
  address : tokens[1]?.bind Address.parse? = some r.key.endpoint.address
  port : (tokens[2]?.bind word?).map UInt64.toNat = some r.key.endpoint.port.toNat
  forward : tokens[3]?.bind amount? = some r.forward.base
  reverse : tokens[4]?.bind amount? = some r.reverse.base
  forwardSwitch : if tokens.length = 5 then r.forward.switch = ⟨maxAmount, r.forward.base⟩
    else tokens[5]?.bind amount? = some r.forward.switch.threshold ∧
      tokens[6]?.bind amount? = some r.forward.switch.alternate
  reverseSwitch : r.reverse.switch =
    if tokens.length = 9 then r.forward.switch else ⟨maxAmount, r.reverse.base⟩

theorem readProtocol_eq_ok {t : Text} {v : UInt8} (h : readProtocol t = .ok v) :
    (word? t).map UInt64.toNat = some v.toNat := by
  obtain ⟨n, hn, hlt, rfl⟩ := readRanged_eq_ok_iff.1 h
  rw [hn, Option.map_some, UInt64.toNat_toUInt8, Nat.mod_eq_of_lt hlt]

theorem readPort_eq_ok {t : Text} {v : UInt16} (h : readPort t = .ok v) :
    (word? t).map UInt64.toNat = some v.toNat := by
  obtain ⟨n, hn, hlt, rfl⟩ := readRanged_eq_ok_iff.1 h
  rw [hn, Option.map_some, UInt64.toNat_toUInt16, Nat.mod_eq_of_lt hlt]

theorem readConstant_eq_ok {p a o f b : Text} (h : readConstant p a o f b = .ok r) :
    (word? p).map UInt64.toNat = some r.key.protocol.toNat ∧
    Address.parse? a = some r.key.endpoint.address ∧
    (word? o).map UInt64.toNat = some r.key.endpoint.port.toNat ∧
    amount? f = some r.forward.base ∧ amount? b = some r.reverse.base ∧
    r = .constant r.key r.forward.base r.reverse.base := by
  simp only [readConstant, bind_eq_ok_iff] at h
  obtain ⟨protocol, hp, address, ha, port, ho, forward, hf, reverse, hb, h⟩ := h
  cases h
  exact ⟨readProtocol_eq_ok hp, elim_eq_ok_iff.1 ha, readPort_eq_ok ho, readAmount_eq_ok_iff.1 hf,
    readAmount_eq_ok_iff.1 hb, rfl⟩

theorem readForwardSwitch_eq_ok {t x : Text} {s : Switch} (h : readForwardSwitch t x = .ok s) :
    amount? t = some s.threshold ∧ amount? x = some s.alternate := by
  simp only [readForwardSwitch, bind_eq_ok_iff, readAmount_eq_ok_iff] at h
  obtain ⟨threshold, ht, alternate, hx, h⟩ := h
  cases h
  exact ⟨ht, hx⟩

theorem says_of_ofTokens (h : tokens.length ∈ [5, 7, 9]) (hr : ofTokens tokens = .ok (r, o)) :
    Says tokens r := by
  rcases exists_eq_of_length h with ⟨p, a, o, f, b, rfl⟩ | ⟨p, a, o, f, b, t, x, rfl⟩ |
    ⟨p, a, o, f, b, t, x, t', x', rfl⟩
  · obtain ⟨rule, hrule, hr⟩ := bind_eq_ok_iff.1 hr
    cases hr
    obtain ⟨hp, ha, ho, hf, hb, heq⟩ := readConstant_eq_ok hrule
    have hswitch : r.forward.switch = ⟨maxAmount, r.forward.base⟩ :=
      congrArg (fun r => r.forward.switch) heq
    exact ⟨hp, ha, ho, hf, hb, hswitch, congrArg (fun r => r.reverse.switch) heq⟩
  · obtain ⟨rule, hrule, hr⟩ := bind_eq_ok_iff.1 hr
    obtain ⟨used, hused, hr⟩ := bind_eq_ok_iff.1 hr
    cases hr
    obtain ⟨hp, ha, ho, hf, hb, heq⟩ := readConstant_eq_ok hrule
    exact ⟨hp, ha, ho, hf, hb, readForwardSwitch_eq_ok hused,
      congrArg (fun r => r.reverse.switch) heq⟩
  · obtain ⟨rule, hrule, hr⟩ := bind_eq_ok_iff.1 hr
    obtain ⟨used, hused, hr⟩ := bind_eq_ok_iff.1 hr
    obtain ⟨given, -, hr⟩ := bind_eq_ok_iff.1 hr
    cases hr
    obtain ⟨hp, ha, ho, hf, hb, -⟩ := readConstant_eq_ok hrule
    exact ⟨hp, ha, ho, hf, hb, readForwardSwitch_eq_ok hused, rfl⟩

/-- A line with five, seven or nine fields is a rule if every column takes its field, and otherwise
the leftmost column that refuses its field gives the fault. -/
theorem columns_decide_line (line : Text) :
    let tokens := Text.fields line
    (tokens.length ∉ [5, 7, 9] → ofLine line = .error (.fieldCount tokens.length)) ∧
    (tokens.length ∈ [5, 7, 9] →
      ((∃ r o, ofLine line = .ok (r, o)) ↔ ∀ x ∈ Column.all.zip tokens, x.1.Accepts x.2) ∧
      (∀ fault, ofLine line = .error fault ↔ ∃ before column token after,
        Column.all.zip tokens = before ++ (column, token) :: after ∧
        (∀ x ∈ before, x.1.Accepts x.2) ∧ column.Refuses token fault) ∧
      ∀ r o, ofLine line = .ok (r, o) → Says tokens r) :=
  ⟨ofTokens_of_length_not_mem, fun h => ⟨exists_ofTokens_eq_ok_iff h,
    fun _ => ofTokens_eq_error_iff h, fun _ _ => says_of_ofTokens h⟩⟩

end DelayRule

end DelayLine
