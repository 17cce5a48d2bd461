import Mathlib.Data.Nat.Log
import Mathlib.Tactic.Ring

/-!
# The SCALE byte format

Little-endian integers and the compact integers of the SCALE codec: one, two or four bytes with the
width in the two low bits, or a byte count and that many bytes. A decoder of a given width refuses
larger values, and every decoder refuses an integer that is not in its shortest form.

`At bytes offset tail` says what stands behind an offset. Readers that walk a byte string by offsets
are followed with it: `At.skip` moves over what was read.
-/

namespace Qnero.Scale

variable {bytes : List UInt8} {offset k : ℕ} {b : UInt8}

/-! ## Little-endian integers -/

/-- The `k` low bytes, least significant first. -/
def toLe : ℕ → ℕ → List UInt8
  | 0, _ => []
  | k + 1, n => UInt8.ofNat n :: toLe k (n / 256)

def ofLe : List UInt8 → ℕ
  | [] => 0
  | b :: bytes => b.toNat + 256 * ofLe bytes

@[simp] theorem length_toLe (k n : ℕ) : (toLe k n).length = k := by
  induction k generalizing n with
  | zero => rfl
  | succ k ih => rw [toLe, List.length_cons, ih]

theorem ofLe_toLe {n : ℕ} (h : n < 256 ^ k) : ofLe (toLe k n) = n := by
  induction k generalizing n with
  | zero =>
    obtain rfl : n = 0 := by simpa using h
    rfl
  | succ k ih =>
    have high : n / 256 < 256 ^ k := by
      rw [pow_succ] at h
      exact Nat.div_lt_of_lt_mul (by rwa [Nat.mul_comm])
    rw [toLe, ofLe, ih high, UInt8.toNat_ofNat']
    exact Nat.mod_add_div n 256

theorem ofLe_lt (bytes : List UInt8) : ofLe bytes < 256 ^ bytes.length := by
  induction bytes with
  | nil => exact Nat.one_pos
  | cons b bytes ih =>
    have := b.toNat_lt
    rw [ofLe, List.length_cons, pow_succ]
    omega

theorem ofLe_append (low high : List UInt8) :
    ofLe (low ++ high) = ofLe low + 256 ^ low.length * ofLe high := by
  induction low with
  | nil => simp [ofLe]
  | cons b low ih =>
    rw [List.cons_append, ofLe, ih, ofLe, List.length_cons, pow_succ]
    ring

theorem toLe_ofLe (bytes : List UInt8) : toLe bytes.length (ofLe bytes) = bytes := by
  induction bytes with
  | nil => rfl
  | cons b bytes ih =>
    have low : UInt8.ofNat (b.toNat + 256 * ofLe bytes) = b := by
      apply UInt8.toNat_inj.1
      rw [UInt8.toNat_ofNat']
      have := b.toNat_lt
      omega
    have high : (b.toNat + 256 * ofLe bytes) / 256 = ofLe bytes := by
      have := b.toNat_lt
      omega
    rw [List.length_cons, ofLe, toLe, low, high, ih]

/-! ## Compact integers -/

/-- The bytes of a big integer without leading zeros. -/
def byteLength (n : ℕ) : ℕ := Nat.log2 n / 8 + 1

theorem lt_pow_byteLength (n : ℕ) : n < 256 ^ byteLength n := by
  have width : Nat.log2 n + 1 ≤ 8 * byteLength n := by
    unfold byteLength
    omega
  calc n < 2 ^ (Nat.log2 n + 1) := Nat.lt_log2_self
    _ ≤ 2 ^ (8 * byteLength n) := Nat.pow_le_pow_right (by omega) width
    _ = 256 ^ byteLength n := pow_mul 2 8 _

variable {n : ℕ}

theorem pow_byteLength_le (h : n ≠ 0) : 256 ^ (byteLength n - 1) ≤ n := by
  calc 256 ^ (byteLength n - 1) = 2 ^ (8 * (byteLength n - 1)) := (pow_mul 2 8 _).symm
    _ ≤ 2 ^ Nat.log2 n := by
        refine Nat.pow_le_pow_right (by omega) ?_
        unfold byteLength
        omega
    _ ≤ n := Nat.log2_self_le h

theorem byteLength_le {n : ℕ} (h : n < 256 ^ k) (hk : 0 < k) : byteLength n ≤ k := by
  by_contra hlt
  have nonzero : n ≠ 0 := by
    rintro rfl
    exact hlt hk
  have le : 256 ^ k ≤ 256 ^ (byteLength n - 1) := Nat.pow_le_pow_right (by omega) (by omega)
  exact absurd h (Nat.not_lt.2 (le_trans le (pow_byteLength_le nonzero)))

theorem lt_byteLength {n : ℕ} (h : 256 ^ k ≤ n) : k < byteLength n := by
  by_contra hle
  have le : 256 ^ byteLength n ≤ 256 ^ k := Nat.pow_le_pow_right (by omega) (by omega)
  exact absurd (lt_pow_byteLength n) (Nat.not_lt.2 (le_trans le h))

/-- A compact integer in its shortest form. -/
def compact (n : ℕ) : List UInt8 :=
  if n < 2 ^ 6 then [UInt8.ofNat (4 * n)]
  else if n < 2 ^ 14 then toLe 2 (4 * n + 1)
  else if n < 2 ^ 30 then toLe 4 (4 * n + 2)
  else UInt8.ofNat (4 * (byteLength n - 4) + 3) :: toLe (byteLength n) n

theorem length_compact_pos (n : ℕ) : 0 < (compact n).length := by
  unfold compact
  split_ifs <;> simp

theorem length_compact_le (h : n < 2 ^ 30) : (compact n).length ≤ 4 := by
  unfold compact
  split_ifs <;> simp

/-- The length prefix and the bytes. -/
def encodeBytes (bytes : List UInt8) : List UInt8 := compact bytes.length ++ bytes

def takeBytes (n : ℕ) (input : List UInt8) : Option (List UInt8 × List UInt8) :=
  if n ≤ input.length then some (input.take n, input.drop n) else none

/-- Decode a compact integer of at most `width` bytes; returns the rest of the input. -/
def decodeCompact (width : ℕ) : List UInt8 → Option (ℕ × List UInt8)
  | [] => none
  | b :: input =>
    match b.toNat % 4 with
    | 0 => some (b.toNat / 4, input)
    | 1 => do
      let (high, rest) ← takeBytes 1 input
      let x := ofLe (b :: high) / 4
      if 2 ^ 6 ≤ x then some (x, rest) else none
    | 2 => do
      let (high, rest) ← takeBytes 3 input
      let x := ofLe (b :: high) / 4
      if 2 ^ 14 ≤ x then some (x, rest) else none
    | _ => do
      let k := b.toNat / 4 + 4
      if k ≤ width then
        let (bytes, rest) ← takeBytes k input
        let x := ofLe bytes
        if (if k = 4 then 2 ^ 30 else 256 ^ (k - 1)) ≤ x then some (x, rest) else none
      else none

@[simp] theorem takeBytes_append (bytes rest : List UInt8) (h : bytes.length = n) :
    takeBytes n (bytes ++ rest) = some (bytes, rest) := by
  subst h
  rw [takeBytes, if_pos (by simp), List.take_left, List.drop_left]

/-! ### The four modes

What the first byte and the bytes behind it are, for each size of the integer; the two decoders of
the wallets both read these.
-/

/-- The form of a compact integer: its first byte, the bytes behind it, and what they say. -/
inductive Form (n : ℕ) : UInt8 → List UInt8 → Prop where
  | one {b : UInt8} (h : n < 2 ^ 6) (hb : b.toNat = 4 * n) : Form n b []
  | two {b : UInt8} {high : List UInt8} (h : 2 ^ 6 ≤ n ∧ n < 2 ^ 14) (length : high.length = 1)
      (value : b.toNat + 256 * ofLe high = 4 * n + 1) : Form n b high
  | four {b : UInt8} {high : List UInt8} (h : 2 ^ 14 ≤ n ∧ n < 2 ^ 30) (length : high.length = 3)
      (value : b.toNat + 256 * ofLe high = 4 * n + 2) : Form n b high
  | big {b : UInt8} {bytes : List UInt8} (h : 2 ^ 30 ≤ n) (hb : b.toNat = 4 * (byteLength n - 4) + 3)
      (length : bytes.length = byteLength n) (value : ofLe bytes = n) : Form n b bytes

theorem le_byteLength (h : 2 ^ 30 ≤ n) : 4 ≤ byteLength n :=
  lt_byteLength (k := 3) (le_trans (by decide) h)

/-- **Every integer the format can hold has its form.** -/
theorem compact_form (h : n < 256 ^ 67) : ∃ b bytes, compact n = b :: bytes ∧ Form n b bytes := by
  unfold compact
  split
  · next small =>
    refine ⟨_, _, rfl, .one small ?_⟩
    rw [UInt8.toNat_ofNat']
    omega
  · next large =>
    split
    · next small =>
      refine ⟨_, _, rfl, .two ⟨by omega, small⟩ (length_toLe ..) ?_⟩
      exact ofLe_toLe (k := 2) (n := 4 * n + 1) (by omega)
    · next large =>
      split
      · next small =>
        refine ⟨_, _, rfl, .four ⟨by omega, small⟩ (length_toLe ..) ?_⟩
        exact ofLe_toLe (k := 4) (n := 4 * n + 2) (by omega)
      · next huge =>
        have width := byteLength_le h (by omega)
        refine ⟨_, _, rfl, .big (by omega) ?_ (length_toLe ..)
          (ofLe_toLe (lt_pow_byteLength n))⟩
        rw [UInt8.toNat_ofNat']
        omega

/-- **A decoder reads what fits its width.** -/
theorem decodeCompact_compact (width : ℕ) (hwidth : 4 ≤ width) (hw : width ≤ 67)
    (h : n < 256 ^ width) (rest : List UInt8) :
    decodeCompact width (compact n ++ rest) = some (n, rest) := by
  obtain ⟨b, bytes, eq, form⟩ := compact_form
    (lt_of_lt_of_le h (Nat.pow_le_pow_right (by omega) hw))
  rw [eq, List.cons_append, decodeCompact]
  cases form with
  | one small hb =>
    have mode : b.toNat % 4 = 0 := by omega
    rw [mode]
    simp only [hb, Nat.mul_div_cancel_left n (Nat.succ_pos 3), List.nil_append]
  | two range length value =>
    have mode : b.toNat % 4 = 1 := by omega
    have read : ofLe (b :: bytes) / 4 = n := by
      rw [ofLe, value]
      omega
    rw [mode]
    simp only [takeBytes_append _ _ length, Option.bind_eq_bind, Option.bind_some, read]
    exact if_pos range.1
  | four range length value =>
    have mode : b.toNat % 4 = 2 := by omega
    have read : ofLe (b :: bytes) / 4 = n := by
      rw [ofLe, value]
      omega
    rw [mode]
    simp only [takeBytes_append _ _ length, Option.bind_eq_bind, Option.bind_some, read]
    exact if_pos range.1
  | big large hb length value =>
    have four := le_byteLength large
    have mode : b.toNat % 4 = 3 := by omega
    have count : b.toNat / 4 + 4 = byteLength n := by omega
    have least : (if byteLength n = 4 then 2 ^ 30 else 256 ^ (byteLength n - 1)) ≤ n := by
      split
      · exact large
      · exact pow_byteLength_le (by omega)
    rw [mode]
    simp only [count, if_pos (byteLength_le h (by omega)), takeBytes_append _ _ length,
      Option.bind_eq_bind, Option.bind_some, value]
    exact if_pos least

/-- **And refuses what does not.** -/
theorem decodeCompact_compact_eq_none (width : ℕ) (hwidth : 4 ≤ width) (h : 256 ^ width ≤ n)
    (hn : n < 256 ^ 67) (rest : List UInt8) : decodeCompact width (compact n ++ rest) = none := by
  have large : 2 ^ 30 ≤ n :=
    le_trans (by decide) (le_trans (Nat.pow_le_pow_right (by omega) hwidth : 256 ^ 4 ≤ _) h)
  have wide := lt_byteLength h
  obtain ⟨b, bytes, eq, form⟩ := compact_form hn
  rw [eq, List.cons_append, decodeCompact]
  cases form with
  | one small => omega
  | two range => omega
  | four range => omega
  | big large hb =>
    have four := le_byteLength large
    have mode : b.toNat % 4 = 3 := by omega
    have count : b.toNat / 4 + 4 = byteLength n := by omega
    rw [mode]
    simp only [count, if_neg (Nat.not_le.2 wide)]

/-- What a mode with bytes behind the first reads. -/
theorem exists_of_takeBytes {least n : ℕ} {f : List UInt8 → ℕ} {input rest : List UInt8} (h : (do
      let (bytes, rest) ← takeBytes k input
      let x := f bytes
      if least ≤ x then some (x, rest) else none) = some (n, rest)) :
    ∃ bytes, input = bytes ++ rest ∧ bytes.length = k ∧ f bytes = n ∧ least ≤ n := by
  rw [takeBytes] at h
  split at h
  · next le =>
    simp only [Option.bind_eq_bind, Option.bind_some] at h
    split at h
    · next enough =>
      obtain ⟨rfl, rfl⟩ := Prod.mk.inj (Option.some.inj h)
      exact ⟨_, (List.take_append_drop k input).symm, List.length_take_of_le le, rfl, enough⟩
    · cases h
  · cases h

/-- **What a decoder reads is written in its shortest form.** -/
theorem eq_compact_of_decodeCompact {width n : ℕ} {input rest : List UInt8} (hwidth : 4 ≤ width)
    (h : decodeCompact width input = some (n, rest)) :
    input = compact n ++ rest ∧ n < 256 ^ width := by
  have wide : 256 ^ 4 ≤ 256 ^ width := Nat.pow_le_pow_right (by omega) hwidth
  cases input with
  | nil => cases h
  | cons b input =>
    have byte := b.toNat_lt
    rw [decodeCompact] at h
    split at h
    · next mode =>
      obtain ⟨rfl, rfl⟩ := Prod.mk.inj (Option.some.inj h)
      have four : 4 * (b.toNat / 4) = b.toNat := by omega
      rw [compact, if_pos (by omega), four, UInt8.ofNat_toNat]
      exact ⟨rfl, by omega⟩
    · next mode =>
      obtain ⟨high, rfl, length, value, least⟩ :=
        exists_of_takeBytes (f := fun high => ofLe (b :: high) / 4) h
      have bound := ofLe_lt (b :: high)
      have spelled := toLe_ofLe (b :: high)
      have whole : ofLe (b :: high) = 4 * n + 1 := by
        rw [ofLe] at value ⊢
        omega
      rw [List.length_cons, length, whole] at bound spelled
      rw [compact, if_neg (by omega), if_pos (by omega), spelled]
      exact ⟨rfl, by omega⟩
    · next mode =>
      obtain ⟨high, rfl, length, value, least⟩ :=
        exists_of_takeBytes (f := fun high => ofLe (b :: high) / 4) h
      have bound := ofLe_lt (b :: high)
      have spelled := toLe_ofLe (b :: high)
      have whole : ofLe (b :: high) = 4 * n + 2 := by
        rw [ofLe] at value ⊢
        omega
      rw [List.length_cons, length, whole] at bound spelled
      rw [compact, if_neg (by omega), if_neg (by omega), if_pos (by omega), spelled]
      exact ⟨rfl, by omega⟩
    · next not0 not1 not2 =>
      have mode : b.toNat % 4 = 3 := by
        have zero : b.toNat % 4 ≠ 0 := not0
        have one : b.toNat % 4 ≠ 1 := not1
        have two : b.toNat % 4 ≠ 2 := not2
        omega
      dsimp only at h
      split at h
      · next fits =>
        obtain ⟨bytes, rfl, length, rfl, least⟩ := exists_of_takeBytes h
        have bound := ofLe_lt bytes
        have spelled := toLe_ofLe bytes
        rw [length] at bound spelled
        have large : 2 ^ 30 ≤ ofLe bytes ∧ 256 ^ (b.toNat / 4 + 4 - 1) ≤ ofLe bytes := by
          split at least
          · next four => exact ⟨least, le_trans (by rw [four]; decide) least⟩
          · next more =>
            exact ⟨le_trans (le_trans (by decide : 2 ^ 30 ≤ 256 ^ 4)
              (Nat.pow_le_pow_right (by omega) (by omega))) least, least⟩
        -- The number of bytes is the least that holds the value.
        have count : byteLength (ofLe bytes) = b.toNat / 4 + 4 := by
          have below := byteLength_le bound (by omega)
          have above := lt_byteLength large.2
          omega
        have first : 4 * (b.toNat / 4 + 4 - 4) + 3 = b.toNat := by omega
        rw [compact, if_neg (by omega), if_neg (by omega), if_neg (by omega), count, first,
          spelled, UInt8.ofNat_toNat]
        exact ⟨rfl, lt_of_lt_of_le bound (Nat.pow_le_pow_right (by omega) fits)⟩
      · cases h

/-! ## Self-delimiting codes

What an encoding is followed by does not change how it is read: no encoding begins another one.
-/

/-- The values are read back, and with them where they end. -/
def SelfDelimiting {α : Type} (valid : α → Prop) (encode : α → List UInt8) : Prop :=
  ∀ a b x y, valid a → valid b → encode a ++ x = encode b ++ y → a = b ∧ x = y

theorem selfDelimiting_compact : SelfDelimiting (· < 256 ^ 4) compact := by
  intro n m x y hn hm h
  have read := congrArg (decodeCompact 4) h
  rw [decodeCompact_compact 4 le_rfl (by omega) hn, decodeCompact_compact 4 le_rfl (by omega) hm]
    at read
  simpa using read

theorem selfDelimiting_encodeBytes : SelfDelimiting (·.length < 256 ^ 4) encodeBytes := by
  intro a b x y ha hb h
  rw [encodeBytes, encodeBytes, List.append_assoc, List.append_assoc] at h
  obtain ⟨length, tails⟩ := selfDelimiting_compact _ _ _ _ ha hb h
  exact List.append_inj tails length

/-- A vector: the count, and the items. -/
def encodeVec {α : Type} (encode : α → List UInt8) (items : List α) : List UInt8 :=
  compact items.length ++ items.flatMap encode

theorem SelfDelimiting.flatMap {α : Type} {valid : α → Prop} {encode : α → List UInt8}
    (code : SelfDelimiting valid encode) {items items' : List α} {x y : List UInt8}
    (length : items.length = items'.length) (hv : ∀ a ∈ items, valid a)
    (hv' : ∀ a ∈ items', valid a) (h : items.flatMap encode ++ x = items'.flatMap encode ++ y) :
    items = items' ∧ x = y := by
  induction items generalizing items' with
  | nil =>
    obtain rfl : items' = [] := List.length_eq_zero_iff.1 length.symm
    exact ⟨rfl, h⟩
  | cons a items ih =>
    obtain ⟨b, items', rfl⟩ := List.exists_cons_of_length_eq_add_one length.symm
    simp only [List.flatMap_cons, List.append_assoc] at h
    obtain ⟨rfl, tails⟩ := code _ _ _ _ (hv a (by simp)) (hv' b (by simp)) h
    obtain ⟨rfl, rest⟩ := ih (by simpa using length) (fun c mem => hv c (by simp [mem]))
      (fun c mem => hv' c (by simp [mem])) tails
    exact ⟨rfl, rest⟩

/-- **A vector of self-delimiting items is self-delimiting.** -/
theorem SelfDelimiting.vec {α : Type} {valid : α → Prop} {encode : α → List UInt8}
    (code : SelfDelimiting valid encode) :
    SelfDelimiting (fun items => items.length < 256 ^ 4 ∧ ∀ a ∈ items, valid a)
      (encodeVec encode) := by
  intro items items' x y hv hv' h
  rw [encodeVec, encodeVec, List.append_assoc, List.append_assoc] at h
  obtain ⟨length, tails⟩ := selfDelimiting_compact _ _ _ _ hv.1 hv'.1 h
  exact code.flatMap length hv.2 hv'.2 tails

/-! ## Offsets -/

/-- `tail` is what stands behind `offset`. -/
structure At (bytes : List UInt8) (offset : ℕ) (tail : List UInt8) : Prop where
  le : offset ≤ bytes.length
  drop_eq : bytes.drop offset = tail

theorem At.start (bytes : List UInt8) : At bytes 0 bytes := ⟨Nat.zero_le _, rfl⟩

theorem At.length_eq {tail : List UInt8} (h : At bytes offset tail) :
    bytes.length = offset + tail.length := by
  have le := h.le
  rw [← h.drop_eq, List.length_drop]
  omega

theorem At.skip {read tail : List UInt8} {next : ℕ}
    (h : At bytes offset (read ++ tail)) (hnext : next = offset + read.length) :
    At bytes next tail := by
  have length := h.length_eq
  rw [List.length_append] at length
  refine ⟨by omega, ?_⟩
  rw [hnext, ← List.drop_drop, h.drop_eq, List.drop_left]

theorem At.tail {tail : List UInt8} (h : At bytes offset (b :: tail)) : At bytes (offset + 1) tail := by
  have length := h.length_eq
  rw [List.length_cons] at length
  refine ⟨by omega, ?_⟩
  rw [← List.drop_drop, h.drop_eq]
  rfl

theorem At.getElem? {tail : List UInt8} (h : At bytes offset (b :: tail)) : bytes[offset]? = some b := by
  have head := congrArg (·[0]?) h.drop_eq
  simpa using head

theorem At.take {read tail : List UInt8} (h : At bytes offset (read ++ tail)) :
    (bytes.drop offset).take read.length = read := by
  rw [h.drop_eq, List.take_left]

theorem At.of_getElem? (h : bytes[offset]? = some b) : At bytes offset (b :: bytes.drop (offset + 1)) := by
  obtain ⟨lt, rfl⟩ := List.getElem?_eq_some_iff.1 h
  exact ⟨lt.le, List.drop_eq_getElem_cons lt⟩

/-- What stands between two offsets. -/
theorem At.between {tail tail' : List UInt8} {next : ℕ}
    (h : At bytes offset tail) (h' : At bytes next tail') (le : offset ≤ next) :
    ∃ read, tail = read ++ tail' ∧ read.length = next - offset := by
  refine ⟨tail.take (next - offset), ?_, ?_⟩
  · have rest : tail.drop (next - offset) = tail' := by
      rw [← h.drop_eq, List.drop_drop, ← h'.drop_eq]
      congr 1
      omega
    rw [← rest, List.take_append_drop]
  · have inside := h'.le
    have total := h.length_eq
    rw [List.length_take]
    omega

end Qnero.Scale
