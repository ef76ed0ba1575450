import SoapStab.Config.Steps

/-!
# Integer settings from the environment

An integer setting is parsed by `stoi` or `stoll`: the longest prefix that is
an integer, checked against the range of `int` or `long long`. For `int32_t`
and `int64_t` this is the range of the setting. A `uint16_t` goes through
`int`, and the cast that follows drops all but sixteen bits.

The property: the add stores exactly the integer the text denotes when it is
in range, and throws otherwise. It fails for a `uint16_t` whose text
denotes an `int` outside `0 … 65535`, which wraps to another port
(`storedExactly_fails`), and nowhere else: `storedExactly_iff`.
-/
namespace SoapStab.Config

open SoapStab.Lib.Decimal

variable {W B : Type}

/-- The integer types of settings. -/
inductive IntType where
  | uint16 | int32 | int64
  deriving DecidableEq

abbrev IntType.prop : IntType → PropType
  | .uint16 => .uint16
  | .int32 => .int32
  | .int64 => .int64

/-- The integer a value of the type is. -/
def IntType.toInt : (I : IntType) → I.prop.Val → Int
  | .uint16, v => v.toNat
  | .int32, v => v.toInt
  | .int64, v => v.toInt

def IntType.InRange : IntType → Int → Prop
  | .uint16, n => 0 ≤ n ∧ n < 2 ^ 16
  | .int32, n => -2 ^ 31 ≤ n ∧ n < 2 ^ 31
  | .int64, n => -2 ^ 63 ≤ n ∧ n < 2 ^ 63

/-- The add reads the text `s`: it stores the integer `s` denotes when that
is in range, it throws and adds nothing otherwise, and a get returns no other
integer. -/
structure StoredExactly (env : Env) (I : IntType) (name s : Str) (d : Option I.prop.Val)
    (isHidden isManageable : Bool) (description : Str) (w : World W B) : Prop where
  inRange : ∀ n, Denotes s n → I.InRange n →
    (addConfigProperty env I.prop name d isHidden isManageable description w).2 = .ok () ∧
      ∃ v, (getConfigPropertyValue I.prop name
        (addConfigProperty env I.prop name d isHidden isManageable description w).1).2 = .ok v ∧ I.toInt v = n
  otherwise : (¬ ∃ n, Denotes s n ∧ I.InRange n) →
    (∃ e, (addConfigProperty env I.prop name d isHidden isManageable description w).2 = .error e) ∧
      name ∉ (addConfigProperty env I.prop name d isHidden isManageable description w).1.store.propertyValues
  never : ∀ v, (getConfigPropertyValue I.prop name
      (addConfigProperty env I.prop name d isHidden isManageable description w).1).2 = .ok v →
    Denotes s (I.toInt v)

/-- The text denotes an `int` that the cast of a `uint16_t` setting changes. -/
def Wraps (I : IntType) (s : Str) : Prop :=
  I = .uint16 ∧ ∃ n, Denotes s n ∧ (-2 ^ 31 ≤ n ∧ n < 2 ^ 31) ∧ ¬ (0 ≤ n ∧ n < 2 ^ 16)

/-! ## Parsing -/

/-- The range the parser of a type checks: that of `int` or `long long`. -/
def IntType.Checked : IntType → Int → Prop
  | .uint16, n => -2 ^ 31 ≤ n ∧ n < 2 ^ 31
  | .int32, n => -2 ^ 31 ≤ n ∧ n < 2 ^ 31
  | .int64, n => -2 ^ 63 ≤ n ∧ n < 2 ^ 63

/-- The cast that follows the check. -/
def IntType.cast : (I : IntType) → Int → I.prop.Val
  | .uint16, n => UInt16.ofInt n
  | .int32, n => Int32.ofInt n
  | .int64, n => Int64.ofInt n

/-- A checked integer, if there is one. -/
def checkedInt (lo hi : Int) (unread outside : Thrown) (x : Option Int) : Except Thrown Int :=
  x.elim (.error unread) fun n => if lo ≤ n ∧ n < hi then .ok n else .error outside

theorem checkedInt_ok (lo hi : Int) (e e' : Thrown) (x : Option Int) (n : Int) :
    checkedInt lo hi e e' x = .ok n ↔ x = some n ∧ (lo ≤ n ∧ n < hi) := by
  cases x with
  | none => simp [checkedInt]
  | some m =>
    by_cases hr : lo ≤ m ∧ m < hi
    · simp only [checkedInt, Option.elim_some, if_pos hr, Except.ok.injEq, Option.some.injEq]
      exact ⟨fun h => ⟨h, h ▸ hr⟩, And.left⟩
    · simp only [checkedInt, Option.elim_some, if_neg hr, Option.some.injEq]
      exact iff_of_false (by simp) fun h => hr (h.1 ▸ h.2)

theorem stoi_ok (s : Str) (n : Int) : stoi s = .ok n ↔ Denotes s n ∧ (-2 ^ 31 ≤ n ∧ n < 2 ^ 31) := by
  have hstoi : stoi s = checkedInt (-2 ^ 31) (2 ^ 31) (stdInvalidArgument "stoi") (stdOutOfRange "stoi")
      (readInt s) := by
    unfold stoi
    cases readInt s <;> rfl
  rw [hstoi, checkedInt_ok, readInt_eq_some_iff]

theorem stoll_ok (s : Str) (n : Int) : stoll s = .ok n ↔ Denotes s n ∧ (-2 ^ 63 ≤ n ∧ n < 2 ^ 63) := by
  have hstoll : stoll s = checkedInt (-2 ^ 63) (2 ^ 63) (stdInvalidArgument "stoll") (stdOutOfRange "stoll")
      (readInt s) := by
    unfold stoll
    cases readInt s <;> rfl
  rw [hstoll, checkedInt_ok, readInt_eq_some_iff]

theorem map_ok {α β : Type} (f : α → β) (x : Except Thrown α) (b : β) :
    x.map f = .ok b ↔ ∃ a, x = .ok a ∧ b = f a := by
  cases x with
  | error e => simp [Except.map]
  | ok a => simp [Except.map, eq_comm]

/-- What the parser of a type returns. -/
theorem strToValue_int_ok (I : IntType) (s : Str) (v : I.prop.Val) :
    strToValue I.prop s = .ok v ↔ ∃ n, Denotes s n ∧ I.Checked n ∧ v = I.cast n := by
  cases I with
  | uint16 =>
    have h := map_ok UInt16.ofInt (stoi s) v
    simp only [stoi_ok] at h
    exact h.trans (exists_congr fun n => and_assoc)
  | int32 =>
    have h := map_ok Int32.ofInt (stoi s) v
    simp only [stoi_ok] at h
    exact h.trans (exists_congr fun n => and_assoc)
  | int64 =>
    have h := map_ok Int64.ofInt (stoll s) v
    simp only [stoll_ok] at h
    exact h.trans (exists_congr fun n => and_assoc)

theorem denotes_unique {s : Str} {n m : Int} (hn : Denotes s n) (hm : Denotes s m) : n = m :=
  Option.some.inj (((readInt_eq_some_iff s n).mpr hn).symm.trans ((readInt_eq_some_iff s m).mpr hm))

theorem uint16_ofInt_toNat_iff (n : Int) : ((UInt16.ofInt n).toNat : Int) = n ↔ 0 ≤ n ∧ n < 2 ^ 16 := by
  simp only [UInt16.ofInt, UInt16.toNat_ofNat']
  omega

/-- The cast keeps the checked integers that are in range, and no others. -/
theorem toInt_cast_iff (I : IntType) {n : Int} (hc : I.Checked n) : I.toInt (I.cast n) = n ↔ I.InRange n := by
  cases I with
  | uint16 => exact uint16_ofInt_toNat_iff n
  | int32 => exact iff_of_true (Int32.toInt_ofInt_of_le hc.1 hc.2) hc
  | int64 => exact iff_of_true (Int64.toInt_ofInt_of_le hc.1 hc.2) hc

theorem checked_of_inRange {I : IntType} {n : Int} (h : I.InRange n) : I.Checked n := by
  cases I with
  | uint16 => exact ⟨by have := h.1; omega, by have := h.2; omega⟩
  | int32 => exact h
  | int64 => exact h

theorem not_wraps_iff (I : IntType) (s : Str) :
    ¬ Wraps I s ↔ ∀ n, Denotes s n → I.Checked n → I.InRange n := by
  cases I with
  | uint16 =>
    constructor
    · intro h n hn hc
      by_contra hr
      exact h ⟨rfl, n, hn, hc, hr⟩
    · rintro h ⟨-, n, hn, hc, hr⟩
      exact hr (h n hn hc)
  | int32 => exact iff_of_true (fun h => nomatch h.1) fun _ _ hc => hc
  | int64 => exact iff_of_true (fun h => nomatch h.1) fun _ _ hc => hc

/-! ## Adding -/

section
variable {env : Env} {P : PropType} {name s : Str} {w : World W B}

/-- The add of a setting whose variable is set, by how the text parses. -/
theorem add_set_cases (d : Option P.Val) (h m : Bool) (desc : Str) (hf : name ∉ w.store.propertyValues)
    (hs : env.getenv (ENV_VAR_PREFIX ++ name) = some s) :
    (∃ v, strToValue P s = .ok v ∧ (addConfigProperty env P name d h m desc w).2 = .ok () ∧
      ∀ v', (getConfigPropertyValue P name (addConfigProperty env P name d h m desc w).1).2 = .ok v' ↔ v' = v) ∨
    (∃ e, strToValue P s = .error e ∧ (addConfigProperty env P name d h m desc w).2 = .error e ∧
      name ∉ (addConfigProperty env P name d h m desc w).1.store.propertyValues) := by
  have hsource : sourceText env name d = some s := by
    unfold sourceText
    rw [Env.getenv_cStr, hs]
    rfl
  rw [addConfigProperty_fresh hf, hsource]
  cases hx : strToValue P s with
  | error e =>
    refine .inr ⟨e, rfl, by simp only [hx], ?_⟩
    simpa only [hx, World.note_store, readSource_store] using hf
  | ok v =>
    refine .inl ⟨v, rfl, by simp only [hx], fun v' => ?_⟩
    rw [getConfigPropertyValue_ok]
    simp only [hx, World.note_store, World.withStore_store, Store.addProperty, Finmap.lookup_insert,
      Option.some.injEq]
    exact ⟨fun he => by cases he; rfl, fun he => by rw [he]⟩

theorem get_of_not_mem (hn : name ∉ w.store.propertyValues) (v : P.Val) :
    (getConfigPropertyValue P name w).2 ≠ .ok v := by
  rw [Ne, getConfigPropertyValue_ok, Finmap.lookup_eq_none.mpr hn]
  simp

end

/-- **Integer settings**, in any state: the add is right if and only if the
text does not wrap. -/
theorem storedExactly_iff (env : Env) (I : IntType) (name s : Str) (d : Option I.prop.Val) (h m : Bool)
    (desc : Str) (w : World W B) (hf : name ∉ w.store.propertyValues)
    (hs : env.getenv (ENV_VAR_PREFIX ++ name) = some s) :
    StoredExactly env I name s d h m desc w ↔ ¬ Wraps I s := by
  rw [not_wraps_iff]
  rcases add_set_cases d h m desc hf hs with
    ⟨v, hx, hadd, hget⟩ | ⟨e, hx, hadd, hnot⟩
  · obtain ⟨n, hn, hc, rfl⟩ := (strToValue_int_ok I s v).mp hx
    constructor
    · intro hexact k hk hck
      have hval := denotes_unique (hexact.never _ ((hget _).mpr rfl)) hn
      rw [denotes_unique hk hn]
      exact (toInt_cast_iff I hc).mp hval
    · intro hall
      have hr := hall n hn hc
      have hval := (toInt_cast_iff I hc).mpr hr
      refine ⟨fun k hk _ => ⟨hadd, _, (hget _).mpr rfl, ?_⟩, fun hno => absurd ⟨n, hn, hr⟩ hno, fun v' hv' => ?_⟩
      · rw [hval, denotes_unique hk hn]
      · rw [(hget v').mp hv', hval]
        exact hn
  · have hfail : ∀ n, Denotes s n → ¬ I.Checked n := by
      intro n hn hc
      have hok := (strToValue_int_ok I s _).mpr ⟨n, hn, hc, rfl⟩
      rw [hx] at hok
      cases hok
    refine iff_of_true ⟨fun n hn hr => absurd (checked_of_inRange hr) (hfail n hn), fun _ => ⟨⟨e, hadd⟩, hnot⟩,
      fun v hv => absurd hv (get_of_not_mem hnot v)⟩ fun n hn hc => absurd hc (hfail n hn)

/-! ## A port that wraps -/

/-- The port 65616 is stored as 80. -/
theorem storedExactly_fails :
    ¬ StoredExactly (everyVariable "65616".toList (by decide)) .uint16 "PORT".toList "65616".toList none false false
      [] (World.empty .trace () : World Unit Unit) := by
  intro h
  have hget : (getConfigPropertyValue .uint16 "PORT".toList
      (addConfigProperty (everyVariable "65616".toList (by decide)) .uint16 "PORT".toList none false false []
        (World.empty .trace () : World Unit Unit)).1).2 = .ok (80 : UInt16) := by decide
  have hread : readInt "65616".toList = some 65616 := by decide
  have h80 := denotes_unique (h.never (80 : UInt16) hget) ((readInt_eq_some_iff _ _).mp hread)
  exact absurd h80 (by decide)

/-- White space, a sign and leading zeros are fine, and so is the rest. -/
theorem storedExactly_iff_port :
    StoredExactly (everyVariable " +08080/tcp".toList (by decide)) .uint16 "PORT".toList " +08080/tcp".toList none
      false false [] (World.empty .trace () : World Unit Unit) := by
  refine (storedExactly_iff _ .uint16 "PORT".toList " +08080/tcp".toList none false false [] _
    Finmap.notMem_empty rfl).mpr ?_
  rintro ⟨-, n, hn, -, hr⟩
  have hread : readInt " +08080/tcp".toList = some 8080 := by decide
  rw [denotes_unique hn ((readInt_eq_some_iff _ _).mp hread)] at hr
  exact hr (by decide)

end SoapStab.Config
