import SoapBinding.DateTime.Text
import SoapBinding.Proofs.DateTime.Civil
import SoapBinding.Proofs.Text.Integer

/-!
# DateTimes read back

A dateTime whose text has the form of RFC 3339 is read as itself, with its offset: `IsWritable` says
which these are. A year of more than four digits, and an offset that is no number of whole minutes, are
written in a form that stands for another dateTime or for none: the local time at the rounded offset
(`read?_renderChars_eq`).
-/

namespace SoapBinding.DateTime

/-- A dateTime that its text stands for: it shows a year of four digits and an offset of whole minutes
less than a day, and is inside a leap second only at the end of a minute. -/
structure IsWritable (t : DateTime) : Prop where
  year_mem : 0 ≤ t.date.year ∧ t.date.year ≤ 9999
  offset_minutes : t.offset % 60 = 0
  offset_mem : -secondsPerDay < t.offset ∧ t.offset < secondsPerDay
  nanos_lt : t.nanos < 2 * nanosPerSecond
  leap : nanosPerSecond ≤ t.nanos → t.timeOfDay % 60 = 59

instance (t : DateTime) : Decidable t.IsWritable :=
  decidable_of_iff ((0 ≤ t.date.year ∧ t.date.year ≤ 9999) ∧ t.offset % 60 = 0 ∧
      (-secondsPerDay < t.offset ∧ t.offset < secondsPerDay) ∧ t.nanos < 2 * nanosPerSecond ∧
      (nanosPerSecond ≤ t.nanos → t.timeOfDay % 60 = 59))
    ⟨fun ⟨hy, hm, ho, hn, hl⟩ => ⟨hy, hm, ho, hn, hl⟩, fun ⟨hy, hm, ho, hn, hl⟩ => ⟨hy, hm, ho, hn, hl⟩⟩

/-! ### Numbers -/

theorem isDigit_of_mem_padded {width n : Nat} {c : Char} (h : c ∈ padded width n) :
    c.isDigit = true := by
  rcases List.mem_append.1 h with hzero | hdigit
  · rw [List.eq_of_mem_replicate hzero]
    decide
  · exact Text.isDigit_of_mem_toDigits hdigit

theorem digitsValue_padded (width n : Nat) : Text.digitsValue (padded width n) = n := by
  rw [padded, Text.digitsValue_zeros, Text.digitsValue_toDigits]

/-- A number that fits is as long as its width. -/
theorem length_padded {width n : Nat} (hwidth : 0 < width) (h : n < 10 ^ width) :
    (padded width n).length = width := by
  have hle : (Nat.toDigits 10 n).length ≤ width := (Nat.length_toDigits_le_iff (by decide) hwidth).2 h
  simp only [padded, List.length_append, List.length_replicate]
  omega

/-- A number that fits is read from its digits, if that many are wanted at least. -/
theorem number?_padded_of_le {least width n : Nat} (hleast : least ≤ width) (hwidth : 0 < width) (h : n < 10 ^ width)
    (rest : List Char) : number? least width (padded width n ++ rest) = some ((n : Int), rest) := by
  have hlength := length_padded hwidth h
  have htake : ((padded width n ++ rest).take width).takeWhile Char.isDigit = padded width n := by
    have hall := @List.takeWhile_append_of_pos _ Char.isDigit (padded width n) [] fun c hc =>
      isDigit_of_mem_padded hc
    rw [List.takeWhile_nil, List.append_nil] at hall
    rw [List.take_append_of_le_length (by omega), List.take_of_length_le (by omega), hall]
  unfold number?
  rw [htake]
  dsimp only
  rw [if_neg (by omega), digitsValue_padded, List.drop_left]

/-- A number of a fixed number of digits is read from them. -/
theorem number?_padded {width n : Nat} (hwidth : 0 < width) (h : n < 10 ^ width) (rest : List Char) :
    number? width width (padded width n ++ rest) = some ((n : Int), rest) :=
  number?_padded_of_le (Nat.le_refl width) hwidth h rest

theorem after?_cons (c : Char) (cs : List Char) : after? c (c :: cs) = some cs := by
  rw [after?, if_pos (by simp)]

/-- A number begins with a digit. -/
theorem exists_padded_cons (width n : Nat) : ∃ c cs, padded width n = c :: cs ∧ c.isDigit = true := by
  cases h : padded width n with
  | nil => exact absurd (List.append_eq_nil_iff.1 h).2 Nat.toDigits_ne_nil
  | cons c cs => exact ⟨c, cs, rfl, isDigit_of_mem_padded (h ▸ List.mem_cons_self)⟩

/-- No blanks stand in front of a number. -/
theorem trimLeft_padded (width n : Nat) (rest : List Char) :
    Text.trimLeft (padded width n ++ rest) = padded width n ++ rest := by
  obtain ⟨c, cs, hpadded, hdigit⟩ := exists_padded_cons width n
  rw [hpadded, List.cons_append, Text.trimLeft, List.dropWhile_cons, if_neg]
  rw [Text.isBlank_of_isDigit hdigit]
  exact Bool.false_ne_true

theorem loose?_padded {n : Nat} (h : n < 10 ^ 2) (rest : List Char) :
    loose? (padded 2 n ++ rest) = some ((n : Int), rest) := by
  rw [loose?, trimLeft_padded, number?_padded_of_le (by decide) (by decide) h]

/-- A year is read with its sign up to the mark behind it, however many digits it has. -/
theorem signedYear?_renderYear (year : Int) (rest : List Char) :
    ∃ read, signedYear? (renderYear year ++ '-' :: rest) = some (read, '-' :: rest) := by
  have hdigits (n : Nat) : (padded 4 n ++ '-' :: rest).takeWhile Char.isDigit = padded 4 n := by
    rw [List.takeWhile_append_of_pos fun c hc => isDigit_of_mem_padded hc, List.takeWhile_cons, if_neg (by decide),
      List.append_nil]
  have hall (n : Nat) : ∃ read, number? 1 (padded 4 n ++ '-' :: rest).length (padded 4 n ++ '-' :: rest) =
      some (read, '-' :: rest) := by
    obtain ⟨c, cs, hpadded, _⟩ := exists_padded_cons 4 n
    refine ⟨Text.digitsValue (padded 4 n), ?_⟩
    unfold number?
    rw [List.take_length, hdigits]
    dsimp only
    rw [if_neg (by simp [hpadded]), List.drop_left]
  have hmark (c : Char) (hc : Text.isBlank c = false) (cs : List Char) : Text.trimLeft (c :: cs) = c :: cs := by
    rw [Text.trimLeft, List.dropWhile_cons, hc, if_neg Bool.false_ne_true]
  unfold renderYear
  split
  · next hyear =>
    simp only [Bool.and_eq_true, decide_eq_true_eq] at hyear
    have hfirst {c : Char} {cs : List Char} (heq : padded 4 year.toNat ++ '-' :: rest = c :: cs) :
        c.isDigit = true := by
      obtain ⟨c', cs', hpadded, hdigit⟩ := exists_padded_cons 4 year.toNat
      rw [hpadded] at heq
      cases heq
      exact hdigit
    refine ⟨(year.toNat : Int), ?_⟩
    unfold signedYear?
    rw [trimLeft_padded]
    split
    · next heq => exact absurd (hfirst heq) (by decide)
    · next heq => exact absurd (hfirst heq) (by decide)
    · exact number?_padded_of_le (by decide) (by decide) (by omega) _
  · obtain ⟨read, hread⟩ := hall year.natAbs
    split
    · refine ⟨-read, ?_⟩
      rw [List.cons_append, signedYear?, hmark '-' (by decide)]
      exact congrArg (Option.map fun read : Int × List Char => (-read.1, read.2)) hread
    · refine ⟨read, ?_⟩
      rw [List.cons_append, signedYear?, hmark '+' (by decide)]
      exact hread

/-! ### The fraction and the offset -/

/-- Digits behind a point, up to a character that is no digit, are read with zeros added to nine. -/
theorem fraction?_padded {width n : Nat} (hwidth : 0 < width ∧ width ≤ 9) (h : n < 10 ^ width)
    {rest : List Char} (hrest : ∀ c ∈ rest.head?, c.isDigit = false) :
    fraction? ('.' :: padded width n ++ rest) = some (n * 10 ^ (9 - width), rest) := by
  have hlength := length_padded hwidth.1 h
  have hdigits : ∀ c ∈ padded width n, c.isDigit = true := fun c hc => isDigit_of_mem_padded hc
  have htake : (padded width n ++ rest).takeWhile Char.isDigit = padded width n := by
    rw [List.takeWhile_append_of_pos hdigits]
    cases rest with
    | nil => simp
    | cons c rest =>
      rw [List.takeWhile_cons, if_neg (by rw [hrest c rfl]; decide), List.append_nil]
  have hdrop : (padded width n ++ rest).dropWhile Char.isDigit = rest := by
    rw [List.dropWhile_append_of_pos hdigits]
    cases rest with
    | nil => rfl
    | cons c rest => rw [List.dropWhile_cons, if_neg (by rw [hrest c rfl]; decide)]
  have hnine : (padded width n ++ List.replicate 9 '0').take 9 =
      padded width n ++ List.replicate (9 - width) '0' := by
    rw [List.take_append, hlength, List.take_of_length_le (by omega), List.take_replicate]
    exact congrArg (fun k => padded width n ++ List.replicate k '0') (by omega)
  have hne : (padded width n).isEmpty = false := by
    rw [List.isEmpty_eq_false_iff, ← List.length_pos_iff]
    omega
  rw [List.cons_append, fraction?, htake, hdrop]
  dsimp only
  rw [hne, if_neg (by decide), hnine, Text.digitsValue_append_zeros, digitsValue_padded]

/-- A fraction is read from the groups of digits that show it. -/
theorem fraction?_renderFraction {nanos : Nat} (h : nanos < nanosPerSecond) {rest : List Char}
    (hrest : ∀ c ∈ rest.head?, c.isDigit = false ∧ c ≠ '.') :
    fraction? (renderFraction nanos ++ rest) = some (nanos, rest) := by
  unfold nanosPerSecond at h
  have hdigit : ∀ c ∈ rest.head?, c.isDigit = false := fun c hc => (hrest c hc).1
  unfold renderFraction
  by_cases hzero : nanos = 0
  · rw [if_pos hzero, List.nil_append, hzero]
    cases rest with
    | nil => rfl
    | cons c rest =>
      unfold fraction?
      split
      · next heq =>
        cases heq
        exact absurd rfl (hrest '.' rfl).2
      · rfl
  · rw [if_neg hzero]
    by_cases hmillis : nanos % 1000000 = 0
    · rw [if_pos hmillis, fraction?_padded (by decide) (by omega) hdigit]
      exact congrArg (fun n => some (n, rest)) (by omega)
    · rw [if_neg hmillis]
      by_cases hmicros : nanos % 1000 = 0
      · rw [if_pos hmicros, fraction?_padded (by decide) (by omega) hdigit]
        exact congrArg (fun n => some (n, rest)) (by omega)
      · rw [if_neg hmicros, fraction?_padded (by decide) (by omega) hdigit]
        exact congrArg (fun n => some (n, rest)) (by omega)

/-- A sign, hours and minutes are read as an offset of less than a day. -/
theorem offset?_digits {c : Char} {sign : Int} (hsign : c = '+' ∧ sign = 1 ∨ c = '-' ∧ sign = -1)
    {minutes : Nat} (h : minutes ≤ 1440) :
    offset? (c :: padded 2 (minutes / 60) ++ ':' :: padded 2 (minutes % 60)) =
      if minutes < 1440 then some (sign * (minutes * 60 : Nat), []) else none := by
  have hlast := @number?_padded 2 (minutes % 60) (by decide) (by omega) []
  rw [List.append_nil] at hlast
  rcases hsign with ⟨rfl, rfl⟩ | ⟨rfl, rfl⟩
  · simp [offset?, number?_padded (by decide : 0 < 2) (show minutes / 60 < 10 ^ 2 by omega),
      after?_cons, hlast]
    by_cases hday : minutes < 1440
    · rw [if_neg (by omega), if_pos hday]
      exact congrArg (fun size => some (size, ([] : List Char))) (by omega)
    · rw [if_pos (by omega), if_neg hday]
  · simp [offset?, number?_padded (by decide : 0 < 2) (show minutes / 60 < 10 ^ 2 by omega),
      after?_cons, hlast]
    by_cases hday : minutes < 1440
    · rw [if_neg (by omega), if_pos hday]
      exact congrArg (fun size => some (size, ([] : List Char))) (by omega)
    · rw [if_pos (by omega), if_neg hday]

/-- An offset to the nearest minute, a half away from zero. -/
def roundedOffset (offset : Int) : Int :=
  (if offset < 0 then -1 else 1) * (((offset.natAbs + 30) / 60 * 60 : Nat) : Int)

theorem roundedOffset_eq_self {offset : Int} : roundedOffset offset = offset ↔ offset % 60 = 0 := by
  unfold roundedOffset
  split <;> omega

/-- An offset is read as it is rounded in its text, unless that is a whole day. -/
theorem offset?_renderOffset {offset : Int} (h : -secondsPerDay < offset ∧ offset < secondsPerDay) :
    offset? (renderOffset offset) =
      if (roundedOffset offset).natAbs < 86400 then some (roundedOffset offset, []) else none := by
  unfold secondsPerDay at h
  unfold renderOffset roundedOffset
  by_cases hzero : offset = 0
  · rw [if_pos hzero, hzero]
    rfl
  · rw [if_neg hzero]
    dsimp only
    by_cases hnegative : offset < 0
    · rw [if_pos hnegative, if_pos hnegative, offset?_digits (.inr ⟨rfl, rfl⟩) (by omega)]
      by_cases hday : (offset.natAbs + 30) / 60 < 1440
      · rw [if_pos hday, if_pos (by omega)]
      · rw [if_neg hday, if_neg (by omega)]
    · rw [if_neg hnegative, if_neg hnegative, offset?_digits (.inl ⟨rfl, rfl⟩) (by omega)]
      by_cases hday : (offset.natAbs + 30) / 60 < 1440
      · rw [if_pos hday, if_pos (by omega)]
      · rw [if_neg hday, if_neg (by omega)]

theorem head?_renderOffset (offset : Int) :
    ∀ c ∈ (renderOffset offset).head?, c.isDigit = false ∧ c ≠ '.' := by
  intro c hc
  unfold renderOffset at hc
  split at hc
  · cases hc
    decide
  · dsimp only [List.cons_append, List.head?_cons] at hc
    cases hc
    split <;> decide

theorem isEmpty_renderOffset (offset : Int) : (renderOffset offset).isEmpty = false := by
  unfold renderOffset
  split <;> rfl

/-! ### The whole text -/

theorem month_mem (t : DateTime) : 1 ≤ t.date.month ∧ t.date.month ≤ 12 := Civil.month_ofDays _

theorem day_mem (t : DateTime) : 1 ≤ t.date.day ∧ t.date.day ≤ 31 := Civil.day_ofDays _

theorem timeOfDay_mem (t : DateTime) : 0 ≤ t.timeOfDay ∧ t.timeOfDay < 86400 :=
  ⟨Int.emod_nonneg _ (by decide), Int.emod_lt_of_pos _ (by decide)⟩

/-- The second that is written has two digits, inside a leap second as well. -/
theorem second_lt (t : DateTime) :
    t.timeOfDay.toNat % 60 + (if nanosPerSecond ≤ t.nanos then 1 else 0) < 10 ^ 2 := by
  split <;> omega

/-- The dateTime that a local time stands for at an offset. A leap second that is not the last of a local minute is
the second behind it there. -/
def shownAt (t : DateTime) (offset : Int) : DateTime :=
  if nanosPerSecond ≤ t.nanos ∧ t.timeOfDay % 60 ≠ 59 then
    ⟨t.localSeconds + 1 - offset, t.nanos - nanosPerSecond, offset⟩
  else ⟨t.localSeconds - offset, t.nanos, offset⟩

/-- A dateTime at its offset stands for itself, if a leap second is the last of its minute. -/
theorem shownAt_eq_self (t : DateTime) :
    t.shownAt t.offset = t ↔ (nanosPerSecond ≤ t.nanos → t.timeOfDay % 60 = 59) := by
  unfold shownAt
  have hback : t.localSeconds - t.offset = t.seconds := Int.add_sub_cancel t.seconds t.offset
  by_cases hleap : nanosPerSecond ≤ t.nanos ∧ t.timeOfDay % 60 ≠ 59
  · rw [if_pos hleap]
    refine iff_of_false (fun heq => ?_) fun h => hleap.2 (h hleap.1)
    have hnanos := congrArg nanos heq
    dsimp only at hnanos
    have := hleap.1
    unfold nanosPerSecond at *
    omega
  · rw [if_neg hleap, hback]
    exact iff_of_true rfl fun h => Decidable.not_not.1 fun hnot => hleap ⟨h, hnot⟩

/-- A date and a time of the clock, put together at an offset, are the dateTime that they stand for. -/
theorem assemble?_shownAt {t : DateTime} {time : Nat}
    (htime : (time : Int) = t.timeOfDay) (offset : Int) :
    assemble? ⟨t.date.year, t.date.month, t.date.day⟩ ((time / 3600 : Nat) : Int)
        ((time / 60 % 60 : Nat) : Int)
        ((time % 60 + (if nanosPerSecond ≤ t.nanos then 1 else 0) : Nat) : Int)
        (if nanosPerSecond ≤ t.nanos then t.nanos - nanosPerSecond else t.nanos) offset =
      some (t.shownAt offset) := by
  have hvalid : (⟨t.date.year, t.date.month, t.date.day⟩ : Civil.Date).isValid = true :=
    Civil.isValid_ofDays _
  have hday := t.timeOfDay_mem
  have hdays : Civil.toDays ⟨t.date.year, t.date.month, t.date.day⟩ * secondsPerDay + t.timeOfDay = t.localSeconds := by
    rw [show Civil.toDays ⟨t.date.year, t.date.month, t.date.day⟩ =
      t.localSeconds / secondsPerDay from Civil.toDays_ofDays _, Int.mul_comm]
    exact Int.mul_ediv_add_emod t.localSeconds secondsPerDay
  have hclock {n : Nat} (hn : n < 61) : (!(⟨t.date.year, t.date.month, t.date.day⟩ : Civil.Date).isValid ||
      24 ≤ ((time / 3600 : Nat) : Int) || 60 ≤ ((time / 60 % 60 : Nat) : Int) || 61 ≤ (n : Int)) = false := by
    simp only [hvalid, Bool.not_true, Bool.false_or, Bool.or_eq_false_iff, decide_eq_false_iff_not]
    omega
  unfold assemble?
  by_cases hleap : nanosPerSecond ≤ t.nanos
  · simp only [if_pos hleap]
    rw [hclock (by omega), if_neg Bool.false_ne_true]
    by_cases hlast : t.timeOfDay % 60 = 59
    · have hshown : t.shownAt offset = ⟨t.localSeconds - offset, t.nanos, offset⟩ := if_neg fun h => h.2 hlast
      rw [hshown, show ((time % 60 + 1 : Nat) : Int) = 60 by omega]
      simp only [beq_self_eq_true, if_true]
      rw [ofLocal, show ((time / 3600 : Nat) : Int) * 3600 + ((time / 60 % 60 : Nat) : Int) * 60 + 59 =
        t.timeOfDay by omega, hdays, Nat.sub_add_cancel hleap]
    · have hsecond : (((time % 60 + 1 : Nat) : Int) == 60) = false := beq_eq_false_iff_ne.2 (by omega)
      have hshown : t.shownAt offset = ⟨t.localSeconds + 1 - offset, t.nanos - nanosPerSecond, offset⟩ :=
        if_pos ⟨hleap, hlast⟩
      rw [hshown, hsecond]
      simp only [Bool.false_eq_true, if_false]
      rw [ofLocal, show ((time / 3600 : Nat) : Int) * 3600 + ((time / 60 % 60 : Nat) : Int) * 60 +
        ((time % 60 + 1 : Nat) : Int) = t.timeOfDay + 1 by omega, ← Int.add_assoc, hdays]
  · have hsecond : (((time % 60 + 0 : Nat) : Int) == 60) = false := beq_eq_false_iff_ne.2 (by omega)
    have hshown : t.shownAt offset = ⟨t.localSeconds - offset, t.nanos, offset⟩ := if_neg fun h => hleap h.1
    simp only [if_neg hleap]
    rw [hclock (by omega), if_neg Bool.false_ne_true, hsecond, hshown]
    simp only [Bool.false_eq_true, if_false]
    rw [ofLocal, show ((time / 3600 : Nat) : Int) * 3600 + ((time / 60 % 60 : Nat) : Int) * 60 +
      ((time % 60 + 0 : Nat) : Int) = t.timeOfDay by omega, hdays]

theorem bind_of_eq_some {α β : Type} {o : Option α} {a : α} {next : α → Option β} (h : o = some a) :
    o >>= next = next a := by
  rw [h]
  rfl

/-- A year with a sign is not read in the form of RFC 3339. -/
theorem zoned?_renderChars_signed {t : DateTime} (hyear : ¬(0 ≤ t.date.year ∧ t.date.year ≤ 9999)) :
    zoned? (renderChars t) = none := by
  have hsign {c : Char} (hc : c.isDigit = false) (cs : List Char) : number? 4 4 (c :: cs) = none := by
    unfold number?
    rw [List.take_succ_cons, List.takeWhile_cons, hc]
    rfl
  unfold renderChars zoned? renderYear
  dsimp only
  rw [if_neg (by simpa only [Bool.and_eq_true, decide_eq_true_eq] using hyear)]
  simp only [List.append_assoc, List.cons_append]
  rw [hsign (by split <;> decide)]
  rfl

section

variable {t : DateTime} (hnanos : t.nanos < 2 * nanosPerSecond)

include hnanos

theorem fraction_lt : (if nanosPerSecond ≤ t.nanos then t.nanos - nanosPerSecond else t.nanos) < nanosPerSecond := by
  split <;> omega

/-- What is read of the text in the form of RFC 3339 hangs on the offset alone, if the year has four digits. -/
theorem zoned?_renderChars (hyear : 0 ≤ t.date.year ∧ t.date.year ≤ 9999) :
    zoned? (renderChars t) = (offset? (renderOffset t.offset)).bind fun read =>
      if read.2.isEmpty then some (t.shownAt read.1) else none := by
  have hmonth := t.month_mem
  have hday := t.day_mem
  have htime := t.timeOfDay_mem
  unfold renderChars zoned? renderYear
  dsimp only
  rw [if_pos (by simp only [Bool.and_eq_true, decide_eq_true_eq]; exact hyear)]
  simp only [List.append_assoc, List.cons_append]
  refine (bind_of_eq_some (number?_padded (by decide) (by omega) _)).trans ?_
  refine (bind_of_eq_some (after?_cons '-' _)).trans ?_
  refine (bind_of_eq_some (number?_padded (by decide) (by omega) _)).trans ?_
  refine (bind_of_eq_some (after?_cons '-' _)).trans ?_
  refine (bind_of_eq_some (number?_padded (by decide) (by omega) _)).trans ?_
  refine (bind_of_eq_some (number?_padded (by decide) (by omega) _)).trans ?_
  refine (bind_of_eq_some (after?_cons ':' _)).trans ?_
  refine (bind_of_eq_some (number?_padded (by decide) (by omega) _)).trans ?_
  refine (bind_of_eq_some (after?_cons ':' _)).trans ?_
  refine (bind_of_eq_some (number?_padded (by decide) t.second_lt _)).trans ?_
  refine (bind_of_eq_some (fraction?_renderFraction (fraction_lt hnanos) (head?_renderOffset _))).trans ?_
  refine congrArg (Option.bind _) (funext fun read => ?_)
  dsimp only
  rw [Int.toNat_of_nonneg hyear.1, Int.toNat_of_nonneg (by omega), Int.toNat_of_nonneg (by omega),
    assemble?_shownAt (Int.toNat_of_nonneg htime.1)]

/-- The text always carries an offset, which the other form has no place for. -/
theorem floating?_renderChars : floating? (renderChars t) = none := by
  have hmonth := t.month_mem
  have hday := t.day_mem
  have htime := t.timeOfDay_mem
  unfold renderChars floating?
  dsimp only
  simp only [List.append_assoc, List.cons_append]
  obtain ⟨year, hyear⟩ := signedYear?_renderYear t.date.year _
  refine (bind_of_eq_some hyear).trans ?_
  refine (bind_of_eq_some (after?_cons '-' _)).trans ?_
  refine (bind_of_eq_some (loose?_padded (by omega) _)).trans ?_
  refine (bind_of_eq_some (after?_cons '-' _)).trans ?_
  refine (bind_of_eq_some (loose?_padded (by omega) _)).trans ?_
  refine (bind_of_eq_some (after?_cons 'T' _)).trans ?_
  refine (bind_of_eq_some (loose?_padded (by omega) _)).trans ?_
  refine (bind_of_eq_some (after?_cons ':' _)).trans ?_
  refine (bind_of_eq_some (loose?_padded (by omega) _)).trans ?_
  refine (bind_of_eq_some (after?_cons ':' _)).trans ?_
  refine (bind_of_eq_some (loose?_padded t.second_lt _)).trans ?_
  refine (bind_of_eq_some (fraction?_renderFraction (fraction_lt hnanos) (head?_renderOffset _))).trans ?_
  dsimp only
  rw [isEmpty_renderOffset]
  rfl

/-- **A dateTime is read from its text as its local time at its rounded offset**, if the year has four digits and the
offset is not rounded to a whole day; any other is not read at all. -/
theorem read?_renderChars_eq (hoffset : -secondsPerDay < t.offset ∧ t.offset < secondsPerDay) :
    read? (renderChars t) =
      if (0 ≤ t.date.year ∧ t.date.year ≤ 9999) ∧ (roundedOffset t.offset).natAbs < 86400 then
        some (t.shownAt (roundedOffset t.offset))
      else none := by
  unfold read?
  rw [floating?_renderChars hnanos, Option.orElse_eq_orElse]
  by_cases hyear : 0 ≤ t.date.year ∧ t.date.year ≤ 9999
  · rw [zoned?_renderChars hnanos hyear, offset?_renderOffset hoffset]
    by_cases hsize : (roundedOffset t.offset).natAbs < 86400
    · rw [if_pos hsize, if_pos ⟨hyear, hsize⟩]
      rfl
    · rw [if_neg hsize, if_neg fun h => hsize h.2]
      rfl
  · rw [zoned?_renderChars_signed hyear, if_neg fun h => hyear h.1]
    rfl

end

/-- **A dateTime is read from its text as itself.** -/
theorem read?_renderChars {t : DateTime} (h : t.IsWritable) : read? (renderChars t) = some t := by
  have hrounded : roundedOffset t.offset = t.offset := roundedOffset_eq_self.2 h.offset_minutes
  have hsize : t.offset.natAbs < 86400 := by
    have := h.offset_mem
    unfold secondsPerDay at this
    omega
  rw [read?_renderChars_eq h.nanos_lt h.offset_mem, hrounded, if_pos ⟨h.year_mem, hsize⟩, t.shownAt_eq_self.2 h.leap]

/-- What is put together shows whole minutes, and a leap second only at the end of one. -/
theorem isWritable_of_assemble? {date : Civil.Date} {hour minute second : Int} {nanos : Nat} {offset : Int}
    {t : DateTime} (h : assemble? date hour minute second nanos offset = some t) (hnanos : nanos < nanosPerSecond)
    (hminutes : offset % 60 = 0) (hoffset : -secondsPerDay < offset ∧ offset < secondsPerDay)
    (hyear : 0 ≤ t.date.year ∧ t.date.year ≤ 9999) : t.IsWritable := by
  unfold assemble? at h
  split at h
  · cases h
  · next hclock =>
    simp only [Bool.or_eq_true, decide_eq_true_eq, not_or] at hclock
    cases h
    refine ⟨hyear, hminutes, hoffset, ?_, ?_⟩
    · dsimp only [ofLocal]
      split <;> omega
    · intro hleap
      dsimp only [ofLocal] at hleap
      split at hleap
      · next hsecond =>
        dsimp only [ofLocal, timeOfDay, localSeconds, secondsPerDay]
        rw [if_pos hsecond]
        omega
      · omega

theorem fraction?_lt {cs rest : List Char} {nanos : Nat} (h : fraction? cs = some (nanos, rest)) :
    nanos < nanosPerSecond := by
  unfold fraction? at h
  split at h
  · next cs =>
    dsimp only at h
    split at h
    · cases h
    · cases h
      have hdigits : ∀ c ∈ (cs.takeWhile Char.isDigit ++ List.replicate 9 '0').take 9, c.isDigit = true := by
        intro c hc
        rcases List.mem_append.1 (List.mem_of_mem_take hc) with hdigit | hzero
        · exact List.all_eq_true.1 List.all_takeWhile c hdigit
        · rw [List.eq_of_mem_replicate hzero]
          decide
      have hlength : ((cs.takeWhile Char.isDigit ++ List.replicate 9 '0').take 9).length = 9 := by
        simp
      have hlt := Text.digitsValue_lt hdigits
      rwa [hlength] at hlt
  · cases h
    decide

/-- A number that is read is natural. -/
theorem number?_natural {least most : Nat} {cs rest : List Char} {n : Int}
    (h : number? least most cs = some (n, rest)) : 0 ≤ n := by
  unfold number? at h
  dsimp only at h
  split at h
  · cases h
  · cases h
    exact Int.natCast_nonneg _

theorem offset?_minutes {cs rest : List Char} {offset : Int} (h : offset? cs = some (offset, rest)) :
    offset % 60 = 0 ∧ -secondsPerDay < offset ∧ offset < secondsPerDay := by
  have hsigned (sign : Int) (hsign : sign = 1 ∨ sign = -1) (cs : List Char)
      (h : ((number? 2 2 cs).bind fun hours => (after? ':' hours.2).bind fun behind =>
        (number? 2 2 behind).bind fun minutes =>
          if 24 ≤ hours.1 || 60 ≤ minutes.1 then none
          else some (sign * (hours.1 * 3600 + minutes.1 * 60), minutes.2)) = some (offset, rest)) :
      offset % 60 = 0 ∧ -secondsPerDay < offset ∧ offset < secondsPerDay := by
    obtain ⟨⟨hours, _⟩, hhours, h⟩ := Option.bind_eq_some_iff.1 h
    obtain ⟨_, _, h⟩ := Option.bind_eq_some_iff.1 h
    obtain ⟨⟨minutes, _⟩, hminutes, h⟩ := Option.bind_eq_some_iff.1 h
    dsimp only at h
    have := number?_natural hhours
    have := number?_natural hminutes
    split at h
    · cases h
    · next hclock =>
      simp only [Bool.or_eq_true, decide_eq_true_eq, not_or] at hclock
      cases h
      unfold secondsPerDay
      rcases hsign with rfl | rfl <;> omega
  unfold offset? at h
  split at h
  · cases h
  · split at h
    · cases h
      decide
    · split at h
      · exact hsigned 1 (.inl rfl) _ h
      · split at h
        · exact hsigned (-1) (.inr rfl) _ h
        · cases h

/-- **A dateTime that has been read is one that its text stands for**, if it shows a year of four digits. -/
theorem isWritable_of_read? {cs : List Char} {t : DateTime} (h : read? cs = some t)
    (hyear : 0 ≤ t.date.year ∧ t.date.year ≤ 9999) : t.IsWritable := by
  have hzoned (h : zoned? cs = some t) : t.IsWritable := by
    unfold zoned? at h
    obtain ⟨⟨year, _⟩, _, h⟩ := Option.bind_eq_some_iff.1 h
    obtain ⟨_, _, h⟩ := Option.bind_eq_some_iff.1 h
    obtain ⟨⟨month, _⟩, _, h⟩ := Option.bind_eq_some_iff.1 h
    obtain ⟨_, _, h⟩ := Option.bind_eq_some_iff.1 h
    obtain ⟨⟨day, _⟩, _, h⟩ := Option.bind_eq_some_iff.1 h
    dsimp only at h
    split at h
    · split at h
      · obtain ⟨_, _, h⟩ := Option.bind_eq_some_iff.1 h
        obtain ⟨⟨hour, _⟩, _, h⟩ := Option.bind_eq_some_iff.1 h
        obtain ⟨_, _, h⟩ := Option.bind_eq_some_iff.1 h
        obtain ⟨⟨minute, _⟩, _, h⟩ := Option.bind_eq_some_iff.1 h
        obtain ⟨_, _, h⟩ := Option.bind_eq_some_iff.1 h
        obtain ⟨⟨second, _⟩, _, h⟩ := Option.bind_eq_some_iff.1 h
        obtain ⟨⟨nanos, _⟩, hnanos, h⟩ := Option.bind_eq_some_iff.1 h
        obtain ⟨⟨offset, _⟩, hoffset, h⟩ := Option.bind_eq_some_iff.1 h
        dsimp only at h
        split at h
        · obtain ⟨hminutes, hday⟩ := offset?_minutes hoffset
          exact isWritable_of_assemble? h (fraction?_lt hnanos) hminutes hday hyear
        · cases h
      · cases h
    · cases h
  have hfloating (h : floating? cs = some t) : t.IsWritable := by
    unfold floating? at h
    obtain ⟨⟨year, _⟩, _, h⟩ := Option.bind_eq_some_iff.1 h
    obtain ⟨_, _, h⟩ := Option.bind_eq_some_iff.1 h
    obtain ⟨⟨month, _⟩, _, h⟩ := Option.bind_eq_some_iff.1 h
    obtain ⟨_, _, h⟩ := Option.bind_eq_some_iff.1 h
    obtain ⟨⟨day, _⟩, _, h⟩ := Option.bind_eq_some_iff.1 h
    obtain ⟨_, _, h⟩ := Option.bind_eq_some_iff.1 h
    obtain ⟨⟨hour, _⟩, _, h⟩ := Option.bind_eq_some_iff.1 h
    obtain ⟨_, _, h⟩ := Option.bind_eq_some_iff.1 h
    obtain ⟨⟨minute, _⟩, _, h⟩ := Option.bind_eq_some_iff.1 h
    obtain ⟨_, _, h⟩ := Option.bind_eq_some_iff.1 h
    obtain ⟨⟨second, _⟩, _, h⟩ := Option.bind_eq_some_iff.1 h
    obtain ⟨⟨nanos, _⟩, hnanos, h⟩ := Option.bind_eq_some_iff.1 h
    dsimp only at h
    split at h
    · exact isWritable_of_assemble? h (fraction?_lt hnanos) (by decide) (by decide) hyear
    · cases h
  unfold read? at h
  cases hread : zoned? cs with
  | some u =>
    rw [hread] at h
    cases h
    exact hzoned hread
  | none =>
    rw [hread] at h
    exact hfloating h

/-- Nothing in the text of a dateTime is blank. -/
theorem isBlank_of_mem_renderChars {t : DateTime} {c : Char} (h : c ∈ renderChars t) :
    Text.isBlank c = false := by
  have hpadded {width n : Nat} (hc : c ∈ padded width n) : Text.isBlank c = false :=
    Text.isBlank_of_isDigit (isDigit_of_mem_padded hc)
  have hmark (m : Char) (hm : Text.isBlank m = false) (hc : c = m) : Text.isBlank c = false := hc ▸ hm
  have hyear (hc : c ∈ renderYear t.date.year) : Text.isBlank c = false := by
    unfold renderYear at hc
    split at hc
    · exact hpadded hc
    · rw [List.mem_cons] at hc
      rcases hc with he | hc
      · rw [he]
        split <;> decide
      · exact hpadded hc
  have hfraction (nanos : Nat) (hc : c ∈ renderFraction nanos) : Text.isBlank c = false := by
    unfold renderFraction at hc
    split at hc
    · cases hc
    · split at hc
      · exact (List.mem_cons.1 hc).elim (hmark '.' (by decide)) hpadded
      · split at hc <;> exact (List.mem_cons.1 hc).elim (hmark '.' (by decide)) hpadded
  have hoffset (hc : c ∈ renderOffset t.offset) : Text.isBlank c = false := by
    unfold renderOffset at hc
    split at hc
    · exact hmark 'Z' (by decide) (List.mem_singleton.1 hc)
    · simp only [List.cons_append, List.mem_cons, List.mem_append] at hc
      rcases hc with he | hc | he | hc
      · rw [he]
        split <;> decide
      · exact hpadded hc
      · exact hmark ':' (by decide) he
      · exact hpadded hc
  unfold renderChars at h
  simp only [List.mem_append, List.mem_cons] at h
  rcases h with ((((((hc | he | hc) | he | hc) | he | hc) | he | hc) | he | hc) | hc) | hc
  · exact hyear hc
  · exact hmark '-' (by decide) he
  · exact hpadded hc
  · exact hmark '-' (by decide) he
  · exact hpadded hc
  · exact hmark 'T' (by decide) he
  · exact hpadded hc
  · exact hmark ':' (by decide) he
  · exact hpadded hc
  · exact hmark ':' (by decide) he
  · exact hpadded hc
  · exact hfraction _ hc
  · exact hoffset hc

end SoapBinding.DateTime
