import RtbAdapter.FilterTables

/-!
# Keys and what they are made of

A key of an order and a key of a request are the same text exactly when they are
made of the same parts: decimals hold no separator, and what is printed into a key
fits its buffer.
-/

namespace FilterKeys

open ByteWords CText PlanningUnit RtbBase FilterTables

/-- Texts with a separator behind something that holds none have the same parts. -/
theorem split_eq_iff {sep : UInt8} {x y s t : Bytes} (clean : sep ∉ x) (clean' : sep ∉ y) :
    x ++ sep :: s = y ++ sep :: t ↔ x = y ∧ s = t := by
  constructor
  · induction x generalizing y with
    | nil =>
      cases y with
      | nil => exact fun same => ⟨rfl, (List.cons.inj same).2⟩
      | cons b y =>
        intro same
        exact absurd ((List.cons.inj same).1 ▸ List.mem_cons_self) clean'
    | cons a x ih =>
      cases y with
      | nil =>
        intro same
        exact absurd ((List.cons.inj same).1 ▸ List.mem_cons_self) clean
      | cons b y =>
        intro same
        obtain ⟨rfl, rest⟩ := List.cons.inj same
        rw [List.mem_cons, not_or] at clean clean'
        obtain ⟨rfl, rfl⟩ := ih clean.2 clean'.2 rest
        exact ⟨rfl, rfl⟩
  · rintro ⟨rfl, rfl⟩
    rfl

/-- `_` between two texts. -/
theorem underscore (s t : Bytes) : s ++ ascii "_" ++ t = s ++ 95 :: t := by
  have sign : ascii "_" = [95] := rfl
  rw [sign, List.append_assoc, List.singleton_append]

theorem adxKey_text (adx : UInt32) (text : Bytes) :
    adxKey adx text = snprintf 128 (decimalUInt adx ++ 95 :: cStr text) := by
  rw [adxKey, underscore]

theorem sizeText_length (m : AdMaterialInfo) : (sizeText m).length ≤ 23 := by
  have width := decimalUInt_length m.width
  have height := decimalUInt_length m.height
  rw [sizeText, List.length_append, List.length_append]
  change _ + 1 + _ ≤ 23
  omega

/-- The key of a creative for an exchange is the one that is asked for when both the exchange
and the size are. -/
theorem sizeKey_eq_iff {n : Nat} (small : n < 2 ^ 31) {adx : UInt32} {m : AdMaterialInfo}
    {size : Bytes} :
    snprintf 128 (decimal n ++ ascii "_" ++ sizeText m) = adxKey adx size ↔
      adx = UInt32.ofNat n ∧ sizeText m = cStr size := by
  have short := decimalUInt_length (UInt32.ofNat n)
  rw [decimalUInt_ofNat small] at short
  have size_ := sizeText_length m
  rw [underscore, snprintf_whole (by rw [List.length_append, List.length_cons]; omega), adxKey_text,
    eq_comm, snprintf_eq_iff (by rw [List.length_append, List.length_cons]; omega),
    split_eq_iff (notMem_decimalUInt (by decide) _) (notMem_decimal (by decide) _),
    decimalUInt_eq_decimal small, eq_comm (a := cStr size)]

section Places

variable {a b : UInt32} {p t : Bytes}

theorem pidText_length (a : UInt32) (p : Bytes) :
    (decimalUInt a ++ 95 :: cStr p).length ≤ p.length + 12 := by
  have number := decimalUInt_length a
  have text := cStr_length p
  rw [List.length_append, List.length_cons]
  omega

/-- A key for a place is the one that is asked for when exchange and place are the same. -/
theorem adxKey_eq_iff (short : p.length ≤ 100) :
    adxKey a p = adxKey b t ↔ a = b ∧ cStr p = cStr t := by
  have length := pidText_length a p
  rw [adxKey_text, adxKey_text, snprintf_whole (by omega), eq_comm,
    snprintf_eq_iff (by omega), eq_comm,
    split_eq_iff (notMem_decimalUInt (by decide) _) (notMem_decimalUInt (by decide) _),
    decimalUInt_injective.eq_iff]

/-- The key for all places is that of a place with a reserved name. -/
theorem allKey_eq (a : UInt32) :
    snprintf 128 (decimalUInt a ++ ascii "_ALL") = adxKey a (ascii "ALL") := by
  rw [adxKey_text]
  rfl

theorem otherKey_text (a : UInt32) (p : Bytes) :
    otherKey a p = snprintf 128 (ascii "OTHER_" ++ (decimalUInt a ++ 95 :: cStr p)) := by
  rw [otherKey, underscore, List.append_assoc]

theorem otherText_length (a : UInt32) (p : Bytes) :
    (ascii "OTHER_" ++ (decimalUInt a ++ 95 :: cStr p)).length ≤ p.length + 18 := by
  have rest := pidText_length a p
  have front : (ascii "OTHER_").length = 6 := rfl
  rw [List.length_append, front]
  omega

theorem otherKey_eq_iff (short : p.length ≤ 100) :
    otherKey a p = otherKey b t ↔ a = b ∧ cStr p = cStr t := by
  have length := otherText_length a p
  rw [otherKey_text, otherKey_text, snprintf_whole (by omega), eq_comm,
    snprintf_eq_iff (by omega), eq_comm, List.append_cancel_left_eq,
    split_eq_iff (notMem_decimalUInt (by decide) _) (notMem_decimalUInt (by decide) _),
    decimalUInt_injective.eq_iff]

/-- A decimal does not start as the keys for site categories do. -/
theorem pidText_ne_otherText (a b : UInt32) (p t : Bytes) :
    decimalUInt a ++ 95 :: cStr p ≠ ascii "OTHER_" ++ (decimalUInt b ++ 95 :: cStr t) := by
  intro same
  obtain ⟨first, digits, printed⟩ := List.exists_cons_of_ne_nil (decimal_ne_nil (toInt32 a.toNat))
  have letter : (79 : UInt8) ∉ decimalUInt a := notMem_decimalUInt (by decide) _
  rw [decimalUInt, printed] at letter
  rw [decimalUInt, printed, List.cons_append] at same
  have front : ascii "OTHER_" = 79 :: ascii "THER_" := rfl
  rw [front, List.cons_append] at same
  exact letter ((List.cons.inj same).1 ▸ List.mem_cons_self)

theorem adxKey_ne_otherKey (short : p.length ≤ 100) : adxKey a p ≠ otherKey b t := by
  have length := pidText_length a p
  rw [adxKey_text, otherKey_text, snprintf_whole (by omega), ne_comm]
  intro same
  rw [snprintf_eq_iff (by omega)] at same
  exact pidText_ne_otherText a b p t same.symm

theorem otherKey_ne_adxKey (short : p.length ≤ 100) : otherKey a p ≠ adxKey b t := by
  have length := otherText_length a p
  rw [adxKey_text, otherKey_text, snprintf_whole (by omega), ne_comm]
  intro same
  rw [snprintf_eq_iff (by omega)] at same
  exact pidText_ne_otherText b a t p same

end Places

theorem numberKey_eq (n : UInt32) : numberKey n = decimalUInt n := by
  have length := decimalUInt_length n
  rw [numberKey, snprintf_whole (by omega)]

/-- A text of a request names a number when it is its decimal up to the first NUL. -/
theorem numberAsk_eq_iff {text : Bytes} {n : UInt32} :
    snprintf 128 (cStr text) = numberKey n ↔ cStr text = decimalUInt n := by
  have length := decimalUInt_length n
  rw [numberKey_eq, snprintf_eq_iff (by omega)]

theorem adExchangeKey_injective : Function.Injective adExchangeKey := by
  have whole : ∀ n, adExchangeKey n = decimalUInt n := by
    intro n
    have length := decimalUInt_length n
    rw [adExchangeKey, snprintf_whole (by omega)]
  intro a b same
  rw [whole, whole] at same
  exact decimalUInt_injective same

theorem twoDigits_length : ∀ n < adDayHours, (twoDigits n).length = 2 := by decide

theorem digits_twoDigits : ∀ n < adDayHours, digits (twoDigits n) = n := by decide

/-- The key of an hour is the one that is asked for in that hour of that day. -/
theorem hourKey_eq_iff {week : UInt32} {day hour now : Nat} (named : day < adWeekDays)
    (here : hour < adDayHours) (there : now < adDayHours) :
    hourKey (decimalUInt week) hour = decimal day ++ twoDigits now ↔
      week.toNat = day ∧ hour = now := by
  have number := decimalUInt_length week
  have small : day < 2 ^ 31 := Nat.lt_trans named (by decide)
  rw [hourKey, snprintf_whole (by rw [List.length_append, twoDigits_length hour here]; omega)]
  constructor
  · intro same
    obtain ⟨front, back⟩ := List.append_inj' same
      ((twoDigits_length hour here).trans (twoDigits_length now there).symm)
    rw [decimalUInt_eq_decimal small] at front
    refine ⟨?_, ?_⟩
    · rw [front, UInt32.toNat_ofNat_of_lt' (by rw [UInt32.size]; omega)]
    · rw [← digits_twoDigits hour here, back, digits_twoDigits now there]
  · rintro ⟨rfl, rfl⟩
    rw [← decimalUInt_ofNat small, UInt32.ofNat_toNat]

end FilterKeys
