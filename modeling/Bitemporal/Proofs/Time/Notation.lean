import Mathlib
import Bitemporal.Checked
import Bitemporal.Proofs.Text.Blank
import Bitemporal.Proofs.Time.Calendar

/-!
# Reading printed instants

A printed instant is read back if its year has four digits. The text holds a letter, so it is not
an integer, and no date is all of it. A year before zero or of more digits is printed with a sign in
front. There a timestamp has digits, so such a text has no reading at all.

## Main definitions

* `Instant.Spells`: the digits that spell a number.
* `Instant.HasPlainYear`: the instant lies in a year that four digits name.
* `Instant.timestamp`: a timestamp by its parts.

## Main statements

* `Instant.parseTimestamp?_formatMicros`: a printed timestamp is read as it was printed.
* `Instant.hasPlainYear_iff`: the range of the instants with such a year.
* `Instant.parse_format`: what is read where an instant was printed.
-/

namespace Bitemporal.Instant

variable {cs rest : List Char} {width n : Nat} {t : Instant}

/-! ## Digits -/

theorem decimal_eq_ofDigitChars (cs : List Char) : decimal cs = Nat.ofDigitChars 10 cs 0 := by
  simp only [decimal, Nat.ofDigitChars, mul_comm]
  rfl

/-- The digits spell the number, with zeros in front up to the width. -/
structure Spells (width n : Nat) (cs : List Char) : Prop where
  length : cs.length = width
  isDigit : ∀ c ∈ cs, c.isDigit
  decimal : decimal cs = n

theorem decimal_replicate (k : Nat) : decimal (List.replicate k '0' ++ cs) = decimal cs := by
  induction k with
  | zero => rfl
  | succ k ih => exact ih

theorem decimal_append_replicate (k : Nat) :
    decimal (cs ++ List.replicate k '0') = decimal cs * 10 ^ k := by
  induction k with
  | zero => simp
  | succ k ih =>
    have hlast : decimal (cs ++ List.replicate (k + 1) '0') =
        decimal (cs ++ List.replicate k '0') * 10 := by
      rw [List.replicate_succ', ← List.append_assoc]
      simp [decimal]
    rw [hlast, ih, pow_succ, mul_assoc]

theorem isDigit_of_mem_padded {c : Char} (h : c ∈ padded width n) : c.isDigit := by
  rcases List.mem_append.1 h with hc | hc
  · rw [List.eq_of_mem_replicate hc]
    rfl
  · exact Nat.isDigit_of_mem_toDigits (by decide) le_rfl hc

theorem spells_padded (hwidth : 0 < width) (h : n < 10 ^ width) :
    Spells width n (padded width n) where
  length := by
    have := (Nat.length_toDigits_le_iff (by decide) hwidth).2 h
    simp only [padded, List.length_append, List.length_replicate]
    omega
  isDigit _ hc := isDigit_of_mem_padded hc
  decimal := by
    rw [padded, decimal_replicate, decimal_eq_ofDigitChars,
      Nat.ofDigitChars_toDigits (by decide) le_rfl]

/-! ## What the parts of a timestamp read -/

theorem twoDigits?_append (h : n < 100) : twoDigits? (padded 2 n ++ rest) = some (n, rest) := by
  have hspells : Spells 2 n (padded 2 n) := spells_padded (by decide) h
  obtain ⟨hlength, hdigit, hvalue⟩ := hspells
  obtain ⟨a, b, heq⟩ := List.length_eq_two.1 hlength
  rw [heq] at hdigit hvalue ⊢
  simp [twoDigits?, hdigit a (by simp), hdigit b (by simp), hvalue]

theorem fourDigits?_append (h : n < 10000) :
    fourDigits? (padded 4 n ++ rest) = some (n, rest) := by
  have hspells : Spells 4 n (padded 4 n) := spells_padded (by decide) h
  obtain ⟨hlength, hdigit, hvalue⟩ := hspells
  match hcs : padded 4 n, hlength with
  | [a, b, c, d], _ =>
    rw [hcs] at hdigit hvalue
    have hsplit : decimal [a, b, c, d] = 100 * decimal [a, b] + decimal [c, d] := by
      simp only [decimal, List.foldl_cons, List.foldl_nil]
      ring
    rw [hsplit] at hvalue
    simp [fourDigits?, twoDigits?, hdigit a (by simp), hdigit b (by simp), hdigit c (by simp),
      hdigit d (by simp), hvalue]

theorem Spells.fraction? (h : Spells width n cs) (hpos : 0 < width) (hle : width ≤ 6)
    (hrest : ∀ c ∈ rest.head?, ¬c.isDigit) :
    fraction? ('.' :: (cs ++ rest)) = some (n * 10 ^ (6 - width), rest) := by
  obtain ⟨hlength, hdigit, hvalue⟩ := h
  have htake : (cs ++ rest).takeWhile Char.isDigit = cs := by
    rw [List.takeWhile_append_of_pos hdigit]
    cases rest with
    | nil => simp
    | cons c rest => rw [List.takeWhile_cons_of_neg (hrest c rfl), List.append_nil]
  have hdrop : (cs ++ rest).dropWhile Char.isDigit = rest := by
    rw [List.dropWhile_append_of_pos hdigit]
    cases rest with
    | nil => rfl
    | cons c rest => exact List.dropWhile_cons_of_neg (hrest c rfl)
  have hsix : Instant.decimal ((cs ++ List.replicate 6 '0').take 6) = n * 10 ^ (6 - width) := by
    rw [List.take_append, List.take_of_length_le (by omega), List.take_replicate, hlength,
      Nat.min_eq_left (by omega), decimal_append_replicate, hvalue]
  have hne : ¬cs.isEmpty := by
    rw [List.isEmpty_iff_length_eq_zero]
    omega
  simp only [Instant.fraction?, htake, hdrop, hsix, if_neg hne]

theorem fraction?_append (h : n < 1000000) (hrest : ∀ c ∈ rest.head?, c ≠ '.' ∧ ¬c.isDigit) :
    fraction? (formatFraction n ++ rest) = some (n, rest) := by
  have hdigit : ∀ c ∈ rest.head?, ¬c.isDigit := fun c hc => (hrest c hc).2
  rw [formatFraction]
  split_ifs with hzero hmillis
  · rw [List.nil_append, hzero]
    cases rest with
    | nil => rfl
    | cons c rest =>
      have hpoint : c ≠ '.' := (hrest c rfl).1
      simp [fraction?, hpoint]
  · have hspells : Spells 3 (n / 1000) (padded 3 (n / 1000)) :=
      spells_padded (by decide) (by omega)
    rw [List.cons_append, hspells.fraction? (by decide) (by decide) hdigit]
    congr 2
    omega
  · rw [List.cons_append, (spells_padded (by decide) h).fraction? (by decide) le_rfl hdigit]
    simp

/-! ## The two ways to print a year -/

/-- The instant lies in a year that four digits name. -/
def HasPlainYear (t : Instant) : Prop :=
  Date.toDays ⟨0, 1, 1⟩ * perDay ≤ t.toInt ∧ t.toInt < Date.toDays ⟨10000, 1, 1⟩ * perDay

instance (t : Instant) : Decidable t.HasPlainYear := inferInstanceAs (Decidable (_ ∧ _))

theorem hasPlainYear_iff : t.HasPlainYear ↔
    0 ≤ (Date.ofDays (t.toInt / perDay)).year ∧ (Date.ofDays (t.toInt / perDay)).year ≤ 9999 := by
  have hlow := Date.year_ofDays_lt_iff (t.toInt / perDay) 0
  have hhigh := Date.year_ofDays_lt_iff (t.toInt / perDay) 10000
  simp only [HasPlainYear, perDay, perSecond] at *
  omega

example : Date.toDays ⟨10000, 1, 1⟩ * perDay = 253402300800000000 := by decide

/-- A timestamp in UTC. -/
def timestamp (year : List Char) (month day hour minute second micros : Nat) : List Char :=
  year ++ '-' :: (padded 2 month ++ '-' :: (padded 2 day ++ 'T' :: (padded 2 hour ++
    ':' :: (padded 2 minute ++ ':' :: (padded 2 second ++ (formatFraction micros ++
      ['+', '0', '0', ':', '0', '0']))))))

theorem formatMicros_eq (micros : Int) : formatMicros micros =
    let date := Date.ofDays (micros / perDay)
    let rest := (micros % perDay).toNat
    let seconds := rest / 1000000
    timestamp (formatYear date.year) date.month date.day (seconds / 3600) (seconds / 60 % 60)
      (seconds % 60) (rest % 1000000) := by
  simp [formatMicros, timestamp]

/-- A timestamp is read part by part. -/
theorem parseTimestamp?_timestamp {year month day hour minute second micros : Nat}
    (hyear : year < 10000) (hmonth : month < 100) (hday : day < 100) (hhour : hour ≤ 23)
    (hminute : minute ≤ 59) (hsecond : second ≤ 59) (hmicros : micros < 1000000) :
    parseTimestamp? (timestamp (padded 4 year) month day hour minute second micros) =
      (midnight? ⟨year, month, day⟩).map fun midnight =>
        midnight + (hour * 3600 + minute * 60 + second : Nat) * perSecond + micros := by
  have hoffset : ∀ c ∈ ['+', '0', '0', ':', '0', '0'].head?, c ≠ '.' ∧ ¬c.isDigit := by
    simp [Char.isDigit]
  have hutc : offset? ['+', '0', '0', ':', '0', '0'] = some (0, []) := by decide
  have hskip (c : Char) (rest : List Char) : skip? c (c :: rest) = some rest := if_pos rfl
  have hread {α : Type} {x : Option α} {a : α} {f : α → Option Int} (h : x = some a) :
      x >>= f = f a := by
    rw [h]
    rfl
  rw [parseTimestamp?, timestamp]
  -- one step at a time: to simplify the whole reading visits what follows twice at every step
  refine (hread (fourDigits?_append hyear)).trans <| (hread (hskip _ _)).trans ?_
  refine (hread (twoDigits?_append hmonth)).trans <| (hread (hskip _ _)).trans ?_
  refine (hread (twoDigits?_append hday)).trans <| (hread (hskip 'T' _)).trans ?_
  refine (hread (twoDigits?_append (by omega))).trans <| (hread (hskip _ _)).trans ?_
  refine (hread (twoDigits?_append (by omega))).trans <| (hread (hskip _ _)).trans ?_
  refine (hread (twoDigits?_append (by omega))).trans <|
    (hread (fraction?_append hmicros hoffset)).trans <| (hread hutc).trans ?_
  cases midnight? ⟨year, month, day⟩ with
  | none => rfl
  | some midnight =>
    have hin : hour ≤ 23 ∧ minute ≤ 59 ∧ second ≤ 60 := by omega
    simp [hin]

/-- A printed timestamp is read as it was printed. -/
theorem parseTimestamp?_formatMicros (h : t.HasPlainYear) :
    parseTimestamp? (formatMicros t.toInt) = some t.toInt := by
  have hplain := hasPlainYear_iff.1 h
  have hvalid := Date.isValid_ofDays (t.toInt / perDay)
  have hdays := Date.toDays_ofDays (t.toInt / perDay)
  simp only [formatMicros_eq]
  generalize Date.ofDays (t.toInt / perDay) = date at hplain hvalid hdays ⊢
  have hyear : (date.year.toNat : Int) = date.year := Int.toNat_of_nonneg hplain.1
  have hmonth : date.month < 100 := by
    have := hvalid.2.1
    omega
  have hday : date.day < 100 := by
    have := hvalid.2.2.2.trans (Date.monthLength_le date.year date.month)
    omega
  have hmidnight : midnight? ⟨date.year.toNat, date.month, date.day⟩ =
      some (t.toInt / perDay * perDay) := by
    rw [hyear, midnight?, if_pos, hdays]
    simp only [firstYear, lastYear]
    exact ⟨hvalid, by omega, by omega⟩
  have hrest : ((t.toInt % perDay).toNat : Int) = t.toInt % perDay ∧
      (t.toInt % perDay).toNat < 86400000000 := by
    simp only [perDay, perSecond]
    omega
  have hsum := Int.mul_ediv_add_emod t.toInt perDay
  generalize (t.toInt % perDay).toNat = rest at hrest ⊢
  have hformat : formatYear date.year = padded 4 date.year.toNat := by
    rw [formatYear, if_neg (by omega), if_pos hplain.2]
  rw [hformat, parseTimestamp?_timestamp (by omega) hmonth hday (by omega) (by omega) (by omega)
    (by omega), hmidnight, Option.map_some, Option.some_inj, mul_comm]
  simp only [perSecond]
  omega

/-! ## Texts that are no integers and no dates

The letter between a date and a time of day is part of no number, and what is read of a date takes
numbers, blanks and hyphens only. So the letter is always left over. -/

theorem parseInteger?_eq_none (h : 'T' ∈ cs) : parseInteger? cs = none := by
  have hdigits {digits : List Char} (h : 'T' ∈ digits) : ¬digits.all Char.isDigit := fun hall =>
    absurd (List.all_eq_true.1 hall 'T' h) (by decide)
  unfold parseInteger?
  split
  rename_i heq
  split at heq <;> cases heq
  · exact if_pos (.inr (hdigits ((List.mem_cons.1 h).resolve_left (by decide))))
  · exact if_pos (.inr (hdigits ((List.mem_cons.1 h).resolve_left (by decide))))
  · exact if_pos (.inr (hdigits h))

theorem mem_of_skip? {c : Char} (hc : c ≠ 'T') (h : 'T' ∈ cs) (hskip : skip? c cs = some rest) :
    'T' ∈ rest := by
  cases cs with
  | nil => cases h
  | cons d cs =>
    obtain ⟨rfl, rfl⟩ : d = c ∧ cs = rest := by simpa [skip?] using hskip
    exact (List.mem_cons.1 h).resolve_left hc.symm

theorem mem_trimLeft (h : 'T' ∈ cs) : 'T' ∈ Text.trimLeft cs := by
  rw [← List.takeWhile_append_dropWhile (p := Text.isBlank) (l := cs), List.mem_append] at h
  exact h.resolve_left fun hblank => absurd (List.mem_takeWhile_imp hblank) (by decide)

theorem mem_of_shortNumber? (h : 'T' ∈ cs) (hread : shortNumber? width cs = some (n, rest)) :
    'T' ∈ rest := by
  have hprefix : (cs.takeWhile Char.isDigit).take width <+: cs :=
    (List.take_prefix _ _).trans (List.takeWhile_prefix _)
  rw [shortNumber?] at hread
  split at hread
  · cases hread
  · obtain ⟨-, rfl⟩ := Prod.mk.inj (Option.some.inj hread)
    obtain ⟨tail, htail⟩ := hprefix
    generalize hdigits : (cs.takeWhile Char.isDigit).take width = digits at htail ⊢
    subst htail
    rw [List.drop_left]
    refine (List.mem_append.1 h).resolve_left fun hmem => ?_
    rw [← hdigits] at hmem
    exact absurd (List.mem_takeWhile_imp (List.mem_of_mem_take hmem)) (by decide)

theorem mem_of_year? {year : Int} (h : 'T' ∈ cs) (hread : year? cs = some (year, rest)) :
    'T' ∈ rest := by
  unfold year? at hread
  split at hread
  all_goals
    obtain ⟨⟨n, tail⟩, hnumber, heq⟩ := Option.map_eq_some_iff.1 hread
    cases heq
  · exact mem_of_shortNumber? ((List.mem_cons.1 h).resolve_left (by decide)) hnumber
  · exact mem_of_shortNumber? ((List.mem_cons.1 h).resolve_left (by decide)) hnumber
  · exact mem_of_shortNumber? h hnumber

theorem parseDate?_eq_none (h : 'T' ∈ cs) : parseDate? cs = none := by
  rw [Option.eq_none_iff_forall_ne_some]
  intro micros hread
  simp only [parseDate?, Option.bind_eq_bind, Option.bind_eq_some_iff, Prod.exists] at hread
  obtain ⟨year, cs₁, hyear, cs₂, hskip, month, cs₃, hmonth, cs₄, hskip', day, cs₅, hday, hend⟩ :=
    hread
  have hmem := mem_of_skip? (by decide) (mem_of_year? (mem_trimLeft h) hyear) hskip
  have hmem := mem_of_skip? (by decide) (mem_of_shortNumber? (mem_trimLeft hmem) hmonth) hskip'
  have hmem := mem_of_shortNumber? (mem_trimLeft hmem) hday
  rw [if_neg (by simp [List.ne_nil_of_mem hmem])] at hend
  cases hend

/-! ## Printed instants -/

theorem not_isBlank_of_isDigit {c : Char} (h : c.isDigit) : ¬Text.isBlank c := by
  have hrange : 48 ≤ c.toNat ∧ c.toNat ≤ 57 := by
    simpa [Char.isDigit, UInt32.le_iff_toNat_le] using h
  simp [Text.isBlank, Text.blankRanges]
  omega

/-- No character of a year is a blank. -/
theorem not_isBlank_of_mem_formatYear {c : Char} {year : Int} (h : c ∈ formatYear year) :
    ¬Text.isBlank c := by
  rw [formatYear] at h
  split_ifs at h
  · rcases List.mem_cons.1 h with rfl | h
    · decide
    · exact not_isBlank_of_isDigit (isDigit_of_mem_padded h)
  · exact not_isBlank_of_isDigit (isDigit_of_mem_padded h)
  · rcases List.mem_cons.1 h with rfl | h
    · decide
    · exact not_isBlank_of_isDigit (isDigit_of_mem_padded h)

theorem isTrimmed_formatMicros (micros : Int) : Text.IsTrimmed (formatMicros micros) where
  head c hc := by
    simp only [formatMicros_eq, timestamp, List.head?_append, List.head?_cons, Option.mem_def,
      Option.or_eq_some_iff] at hc
    rcases hc with hc | ⟨-, hc⟩
    · exact not_isBlank_of_mem_formatYear (List.mem_of_mem_head? hc)
    · obtain rfl := Option.some_inj.1 hc
      decide
  last c hc := by
    have hlast : (formatMicros micros).getLast? = some '0' := by
      rw [formatMicros, List.getLast?_append]
      rfl
    obtain rfl := Option.some_inj.1 (hlast.symm.trans hc)
    decide

theorem mem_formatMicros (micros : Int) : 'T' ∈ formatMicros micros := by
  simp [formatMicros]

/-- A timestamp has no sign in front of its year. -/
theorem parseTimestamp?_of_sign {c : Char} (hc : ¬c.isDigit) :
    parseTimestamp? (c :: cs) = none := by
  have hyear : fourDigits? (c :: cs) = none := by
    cases cs <;> simp [fourDigits?, twoDigits?, hc]
  rw [parseTimestamp?, hyear]
  rfl

theorem ofInt?_toInt (t : Instant) : ofInt? t.toInt = some t := by
  rw [ofInt?, if_pos ⟨t.minValue_le_toInt, t.toInt_le⟩, Int64.ofInt_toInt]

theorem exists_formatMicros_eq (h : ¬t.HasPlainYear) :
    ∃ c cs, formatMicros t.toInt = c :: cs ∧ ¬c.isDigit := by
  rw [hasPlainYear_iff] at h
  simp only [formatMicros_eq, timestamp, formatYear]
  split_ifs
  · exact ⟨'-', _, rfl, by decide⟩
  · omega
  · exact ⟨'+', _, rfl, by decide⟩

/-- A printed instant is read back if its year has four digits, and is not read otherwise. -/
theorem parse_format {text : String} (h : t.format? = some text) : parse text =
    if t.HasPlainYear then .ok t else .error (.malformed s!"unparseable instant: '{text}'") := by
  have htext : text.toList = formatMicros t.toInt := by
    simp only [format?] at h
    split_ifs at h
    rw [← Option.some_inj.1 h, String.toList_ofList]
  have hread : parse? text = if t.HasPlainYear then some t else none := by
    simp only [parse?, htext, Text.trimChars_eq_self (isTrimmed_formatMicros _),
      parseInteger?_eq_none (mem_formatMicros _), parseDate?_eq_none (mem_formatMicros _)]
    split_ifs with hplain
    · rw [parseTimestamp?_formatMicros hplain]
      exact ofInt?_toInt t
    · obtain ⟨c, cs, heq, hsign⟩ := exists_formatMicros_eq hplain
      rw [heq, parseTimestamp?_of_sign hsign]
      rfl
  rw [parse, hread]
  split_ifs <;> rfl

/-- The last microsecond before the epoch. -/
theorem parse_format_microsecond :
    format? (-1) = some "1969-12-31T23:59:59.999999+00:00" ∧ HasPlainYear (-1) ∧
      parse "1969-12-31T23:59:59.999999+00:00" = .ok (-1) := by
  have hformat : format? (-1) = some "1969-12-31T23:59:59.999999+00:00" := by decide +kernel
  have hplain : HasPlainYear (-1) := by decide
  exact ⟨hformat, hplain, (parse_format hformat).trans (if_pos hplain)⟩

/-- The first instant of the year 10000 is printed with a sign in front, which no reading takes. -/
theorem parse_year_10000 :
    format? 253402300800000000 = some "+10000-01-01T00:00:00+00:00" ∧
      parse "+10000-01-01T00:00:00+00:00" =
        .error (.malformed "unparseable instant: '+10000-01-01T00:00:00+00:00'") := by
  decide +kernel

end Bitemporal.Instant
