import Mathlib
import Bitemporal.Proofs.Order
import Bitemporal.Proofs.Page.Probes
import Bitemporal.Proofs.Page.Summary

/-!
# What summaries let pass

A summary keeps the extremes of the rows of a page and a filter of their entities, so what it lets
pass can be told from the rows: windows that hold some of these extremes, and entities each of whose
bits some row has set. No row that matters is ruled out.

## Main definitions

* `Bloom.probesIn`: the bits that stand for an entity.
* `Bloom.enter`: an entity goes in, bit by bit.
* `Bloom.ofEntities`: the filter of a size into which some entities went.

## Main statements

* `Bloom.enter_eq`: no step goes wrong when an entity goes into a filter with words.
* `Bloom.holds_ofEntities_iff`, `Bloom.intersects_ofEntities_iff`: what filters say.
* `Page.overlaps_summary_iff`: the windows that a page overlaps.
* `Page.summary_passes`: a summary rules out no row that matters.
-/

namespace Bitemporal

open scoped Linear

namespace Bloom

variable {a b : Bloom} {e : EntityId} {words : List UInt64} {es : List EntityId} {x y : UInt64}
  {n p q : Nat}

/-! ## Single bits -/

theorem testBit_setBit_iff (hp : p / 64 < words.length) :
    testBit (setBit words p) q ↔ testBit words q ∨ q = p := by
  refine ⟨fun h => ?_, fun h => ?_⟩
  · rw [testBit_iff, setBit, List.getElem?_modify, Option.map_eq_map] at h
    obtain ⟨x, hx, hbit⟩ := h
    obtain ⟨y, hy, rfl⟩ := Option.map_eq_some_iff.1 hx
    by_cases hword : p / 64 = q / 64
    · have hk : p % 64 < 64 := Nat.mod_lt _ (by omega)
      rw [if_pos hword, UInt64.toNat_or, toNat_bit hk, Nat.testBit_or, Nat.testBit_two_pow,
        Bool.or_eq_true, decide_eq_true_eq] at hbit
      rcases hbit with hbit | hbit
      · exact .inl (testBit_iff.2 ⟨y, hy, hbit⟩)
      · exact .inr (by omega)
    · rw [if_neg hword] at hbit
      exact .inl (testBit_iff.2 ⟨y, hy, hbit⟩)
  · rcases h with h | rfl
    · exact testBit_setBit_of_testBit h
    · exact testBit_setBit_self hp

theorem testBit_foldl_iff {ps : List Nat} (hps : ∀ p ∈ ps, p / 64 < words.length) :
    testBit (ps.foldl setBit words) q ↔ testBit words q ∨ q ∈ ps := by
  induction ps generalizing words with
  | nil => simp
  | cons p ps ih =>
    rw [List.forall_mem_cons] at hps
    rw [List.foldl_cons, ih (by rw [length_setBit]; exact hps.2), testBit_setBit_iff hps.1,
      List.mem_cons, or_assoc]

theorem not_testBit_ofBits (bits q : Nat) : ¬ testBit (ofBits bits).words q := by
  rw [testBit_iff]
  rintro ⟨x, hx, hbit⟩
  obtain ⟨-, rfl⟩ := List.mem_replicate.1 (List.mem_of_getElem? hx)
  simp at hbit

/-- Two words share a bit exactly if their conjunction is not zero. -/
theorem and_ne_zero_iff : x &&& y ≠ 0 ↔ ∃ k, x.toNat.testBit k ∧ y.toNat.testBit k := by
  rw [Ne, ← UInt64.toNat_inj, UInt64.toNat_and]
  refine ⟨fun h => ?_, ?_⟩
  · obtain ⟨k, hk⟩ := Nat.exists_testBit_of_ne_zero h
    exact ⟨k, by simpa using hk⟩
  · rintro ⟨k, hx, hy⟩ hzero
    have hbit : (x.toNat &&& y.toNat).testBit k := by simp [hx, hy]
    simp [hzero] at hbit

/-! ## Entities that go in -/

/-- The bits that stand for an entity among some number of bits. -/
def probesIn (n : Nat) (e : EntityId) : List Nat := (hashes e).map fun h => h.toNat % n

/-- Sets the bit of a hash value. -/
def mark (b : Bloom) (h : UInt64) : Except Fault Bloom :=
  if b.bitCount = 0 then .error .division
  else
    let position := h.toNat % b.bitCount
    match b.words[position / 64]? with
    | none => .error .index
    | some x => .ok ⟨b.words.set (position / 64) (x ||| (1 <<< UInt64.ofNat (position % 64)))⟩

/-- An entity goes in, bit by bit. -/
def enter (b : Bloom) (e : EntityId) : Except Fault Bloom := (hashes e).foldlM mark b

/-- The filter of at least that many bits into which some entities went. -/
def ofEntities (bits : Nat) (es : List EntityId) : Bloom := es.foldl insert (ofBits bits)

theorem probes?_eq (h : b.words ≠ []) (e : EntityId) :
    b.probes? e = some (probesIn b.bitCount e) := if_neg (by simpa using h)

/-- The word of every bit is there. -/
theorem div_lt_of_mem_probesIn (h : b.words ≠ []) (hp : p ∈ probesIn b.bitCount e) :
    p / 64 < b.words.length := by
  obtain ⟨x, -, rfl⟩ := List.mem_map.1 hp
  have hpos : 0 < b.words.length := List.length_pos_iff.2 h
  have := Nat.mod_lt x.toNat (show 0 < b.bitCount by rw [bitCount]; omega)
  rw [bitCount] at this ⊢
  omega

theorem mark_eq (h : b.words ≠ []) (x : UInt64) :
    b.mark x = .ok ⟨setBit b.words (x.toNat % b.bitCount)⟩ := by
  have hpos : b.bitCount ≠ 0 := bitCount_eq_zero_iff.not.2 h
  have hlt : x.toNat % b.bitCount / 64 < b.words.length := by
    have := Nat.mod_lt x.toNat (Nat.pos_of_ne_zero hpos)
    rw [bitCount] at this ⊢
    omega
  rw [mark, if_neg hpos]
  simp only [List.getElem?_eq_getElem hlt, setBit, List.modify_eq_set_getElem?]
  rfl

theorem foldlM_mark (hs : List UInt64) (h : b.words ≠ []) : hs.foldlM mark b =
    .ok ⟨(hs.map fun x => x.toNat % b.bitCount).foldl setBit b.words⟩ := by
  induction hs generalizing b with
  | nil => rfl
  | cons x hs ih =>
    have hlength : (setBit b.words (x.toNat % b.bitCount)).length = b.words.length := length_setBit
    have hset : setBit b.words (x.toNat % b.bitCount) ≠ [] := by
      rwa [← List.length_pos_iff, hlength, List.length_pos_iff]
    have hcount : bitCount ⟨setBit b.words (x.toNat % b.bitCount)⟩ = b.bitCount := by
      rw [bitCount, hlength, bitCount]
    have hrest := @ih ⟨setBit b.words (x.toNat % b.bitCount)⟩ hset
    rw [hcount] at hrest
    rw [List.foldlM_cons, mark_eq h]
    exact hrest

/-- An entity goes into a filter with words, and no step goes wrong. -/
theorem enter_eq (h : b.words ≠ []) (e : EntityId) : b.enter e = .ok (b.insert e) := by
  rw [enter, foldlM_mark _ h, insert, probes?_eq h]
  rfl

theorem bitCount_insert (b : Bloom) (e : EntityId) : (b.insert e).bitCount = b.bitCount := by
  rw [bitCount, length_insert, bitCount]

theorem words_insert_ne_nil (h : b.words ≠ []) (e : EntityId) : (b.insert e).words ≠ [] := by
  rwa [← List.length_pos_iff, length_insert, List.length_pos_iff]

theorem testBit_insert_iff (h : b.words ≠ []) :
    testBit (b.insert e).words q ↔ testBit b.words q ∨ q ∈ probesIn b.bitCount e := by
  rw [insert, probes?_eq h]
  exact testBit_foldl_iff fun p hp => div_lt_of_mem_probesIn h hp

/-- The bits of a filter are those that were set before and those of the entities that went in. -/
theorem testBit_foldl_insert_iff (h : b.words ≠ []) :
    (es.foldl insert b).words.length = b.words.length ∧
      ∀ q, testBit (es.foldl insert b).words q ↔
        testBit b.words q ∨ ∃ e ∈ es, q ∈ probesIn b.bitCount e := by
  induction es generalizing b with
  | nil => simp
  | cons e es ih =>
    obtain ⟨hlength, hbits⟩ := ih (words_insert_ne_nil h e)
    refine ⟨hlength.trans (length_insert b e), fun q => ?_⟩
    rw [List.foldl_cons, hbits, testBit_insert_iff h, bitCount_insert]
    simp [or_assoc]

theorem words_ofBits_ne_nil (bits : Nat) : (ofBits bits).words ≠ [] := by simp [ofBits]

theorem length_ofEntities (bits : Nat) (es : List EntityId) :
    (ofEntities bits es).words.length = max ((bits + 63) / 64) 1 := by
  rw [ofEntities, (testBit_foldl_insert_iff (words_ofBits_ne_nil bits)).1, ofBits,
    List.length_replicate]

theorem words_ofEntities_ne_nil (bits : Nat) (es : List EntityId) :
    (ofEntities bits es).words ≠ [] := by
  rw [← List.length_pos_iff, length_ofEntities]
  omega

theorem bitCount_ofEntities (bits : Nat) (es : List EntityId) :
    (ofEntities bits es).bitCount = (ofBits bits).bitCount := by
  rw [bitCount, length_ofEntities, bitCount, ofBits, List.length_replicate]

theorem testBit_ofEntities_iff {bits : Nat} : testBit (ofEntities bits es).words q ↔
    ∃ e ∈ es, q ∈ probesIn (ofBits bits).bitCount e := by
  rw [ofEntities, (testBit_foldl_insert_iff (words_ofBits_ne_nil bits)).2]
  simp [not_testBit_ofBits]

/-- A filter denies an entity exactly if one of its bits is that of no entity that went in. -/
theorem holds_ofEntities_iff {bits : Nat} : (ofEntities bits es).Holds e ↔
    ∀ p ∈ probesIn (ofBits bits).bitCount e, ∃ d ∈ es, p ∈ probesIn (ofBits bits).bitCount d := by
  rw [holds_iff (words_ofEntities_ne_nil bits es), bitCount_ofEntities]
  simp only [testBit_ofEntities_iff]
  simp [probesIn]

/-- Filters of one size intersect exactly if they share a bit. -/
theorem intersects_iff : a.intersects b ↔
    (a.words.length = b.words.length → ∃ p, testBit a.words p ∧ testBit b.words p) := by
  rw [intersects]
  split
  · rename_i hlength
    exact iff_of_true rfl fun h => absurd h hlength
  · rename_i hlength
    rw [not_not] at hlength
    simp only [hlength, true_imp_iff, List.any_eq_true, decide_eq_true_eq, Prod.exists]
    refine ⟨?_, ?_⟩
    · rintro ⟨x, y, hmem, hshared⟩
      obtain ⟨i, hi⟩ := List.getElem?_of_mem hmem
      rw [List.getElem?_zip_eq_some] at hi
      obtain ⟨k, hx, hy⟩ := and_ne_zero_iff.1 hshared
      have hk : k < 64 := by
        by_contra hk
        have : x.toNat < 2 ^ k := x.toNat_lt.trans_le (Nat.pow_le_pow_right (by decide) (by omega))
        simp [Nat.testBit_lt_two_pow this] at hx
      have hdiv : (64 * i + k) / 64 = i := by omega
      have hmod : (64 * i + k) % 64 = k := by omega
      exact ⟨64 * i + k, testBit_iff.2 ⟨x, by rw [hdiv, hmod]; exact ⟨hi.1, hx⟩⟩,
        testBit_iff.2 ⟨y, by rw [hdiv, hmod]; exact ⟨hi.2, hy⟩⟩⟩
    · rintro ⟨p, ha, hb⟩
      obtain ⟨x, hx, hxbit⟩ := testBit_iff.1 ha
      obtain ⟨y, hy, hybit⟩ := testBit_iff.1 hb
      exact ⟨x, y, List.mem_of_getElem? (List.getElem?_zip_eq_some.2 ⟨hx, hy⟩),
        and_ne_zero_iff.2 ⟨_, hxbit, hybit⟩⟩

/-- Filters of one size intersect exactly if entities that went into them share a bit. -/
theorem intersects_ofEntities_iff {bits bits' : Nat} {es' : List EntityId} :
    (ofEntities bits es).intersects (ofEntities bits' es') ↔
      ((ofBits bits).bitCount = (ofBits bits').bitCount → ∃ e ∈ es, ∃ e' ∈ es',
        ∃ p ∈ probesIn (ofBits bits).bitCount e, p ∈ probesIn (ofBits bits).bitCount e') := by
  have hcount : (ofEntities bits es).words.length = (ofEntities bits' es').words.length ↔
      (ofBits bits).bitCount = (ofBits bits').bitCount := by
    rw [← bitCount_ofEntities bits es, ← bitCount_ofEntities bits' es', bitCount, bitCount]
    omega
  rw [intersects_iff, hcount]
  refine imp_congr_right fun hsame => ?_
  simp only [testBit_ofEntities_iff, ← hsame]
  grind

end Bloom

/-! ## Selected entities -/

/-- A filter with words is asked for one selected entity after the other. -/
theorem Selector.anyContained?_eq {b : Bloom} (h : b.words ≠ []) (ids : List EntityId) :
    Selector.anyContained? b ids = some (ids.any fun e => b.mightContain? e = some true) := by
  induction ids with
  | nil => rfl
  | cons e ids ih =>
    obtain ⟨c, hc⟩ := Bloom.exists_mightContain?_eq h e
    rw [anyContained?, hc, List.any_cons, hc, ih]
    cases c <;> rfl

/-! ## Rows -/

namespace PageSummary

variable {s : PageSummary} {f : Fact} {rows : List Fact} {t : Instant}

/-- What a summary keeps of rows, beside those that it knew of before. -/
theorem foldl_addRow (s : PageSummary) (rows : List Fact) :
    (∀ t, (rows.foldl addRow s).minSystemFrom < t ↔
      s.minSystemFrom < t ∨ ∃ f ∈ rows, f.systemFrom < t) ∧
    (∀ t, (rows.foldl addRow s).minValidFrom < t ↔
      s.minValidFrom < t ∨ ∃ f ∈ rows, f.validFrom < t) ∧
    (∀ t, t < (rows.foldl addRow s).maxValidTo ↔
      t < s.maxValidTo ∨ ∃ f ∈ rows, t < f.validTo) ∧
    ((rows.foldl addRow s).hasErase ↔ s.hasErase ∨ ∃ f ∈ rows, f.isErase) ∧
    (rows.foldl addRow s).entities = (rows.map (·.entity)).foldl Bloom.insert s.entities := by
  induction rows generalizing s with
  | nil => simp
  | cons f rest ih =>
    obtain ⟨hsystem, hfrom, hto, herase, hentities⟩ := ih (s.addRow f)
    refine ⟨fun t => ?_, fun t => ?_, fun t => ?_, ?_, hentities⟩
    · rw [List.foldl_cons, hsystem]
      simp [addRow, or_assoc]
    · rw [List.foldl_cons, hfrom]
      simp [addRow, or_assoc]
    · rw [List.foldl_cons, hto]
      simp [addRow, or_assoc]
    · rw [List.foldl_cons, herase]
      simp [addRow, or_assoc]

end PageSummary

namespace Page

variable {pg : Page} {b : Bounds} {bloomBits : Nat}

theorem entities_summary (pg : Page) (bloomBits : Nat) :
    (pg.summary bloomBits).entities = .ofEntities bloomBits (pg.rows.map (·.entity)) :=
  (PageSummary.foldl_addRow _ pg.rows).2.2.2.2

/-- A page overlaps windows exactly if it holds an erase, or rows, one for each end that counts, of
which one is known, one begins before the end of the valid times and one ends after their
beginning. -/
theorem overlaps_summary_iff : (pg.summary bloomBits).overlaps b ↔
    (∃ f ∈ pg.rows, f.isErase) ∨
      (∃ f ∈ pg.rows, b.knows f.systemFrom) ∧ (∃ f ∈ pg.rows, f.validFrom < b.valid.upper) ∧
        ∃ f ∈ pg.rows, b.valid.lower < f.validTo := by
  obtain ⟨hsystem, hfrom, hto, herase, -⟩ :=
    PageSummary.foldl_addRow (.ofBits bloomBits) pg.rows
  have hnever (t : Instant) : ¬ Instant.never < t := not_lt.2 (Instant.le_never t)
  have hstart (t : Instant) : ¬ t < Instant.start := Instant.not_lt_start t
  simp only [PageSummary.overlaps, summary, Bool.or_eq_true, Bool.and_eq_true, Bounds.knows,
    Window.intersects, decide_eq_true_eq, gt_iff_lt, hsystem, hfrom, hto, herase]
  simp [PageSummary.ofBits, hnever, hstart]

theorem mayMatch?_summary_eq {s : Selector} (pg : Page) (bloomBits : Nat) :
    s.mayMatch? (pg.summary bloomBits) =
      some (s.ids.any fun e => (pg.summary bloomBits).entities.mightContain? e = some true) :=
  Selector.anyContained?_eq (words_summary_ne_nil pg bloomBits) s.ids

/-- A summary rules out no row that matters. The page overlaps exactly the windows that hold an
extreme of its rows at each end that counts, so it overlaps those that some row takes part in. Its
filter does not deny a selected entity of a row. Whatever went into a filter of whatever size, no
question and no further entity goes wrong, exactly those are not denied whose bits were all set, all
that went in among them, and two filters intersect if some entity went into both. -/
theorem summary_passes (pg : Page) (bloomBits : Nat) (b : Bounds) (s : Selector) :
    ((pg.summary bloomBits).overlaps b = true ↔
      (∃ f ∈ pg.rows, f.isErase) ∨
        (∃ f ∈ pg.rows, b.knows f.systemFrom) ∧ (∃ f ∈ pg.rows, f.validFrom < b.valid.upper) ∧
          ∃ f ∈ pg.rows, b.valid.lower < f.validTo) ∧
    (∀ f ∈ pg.rows, f.isErase ∨ b.knows f.systemFrom ∧
      b.valid.intersects f.validFrom f.validTo → (pg.summary bloomBits).overlaps b = true) ∧
    (∀ f ∈ pg.rows, s.selects f.entity → s.mayMatch? (pg.summary bloomBits) = some true) ∧
    ∀ (bits : Nat) (es : List EntityId),
      (∀ e, (∃ ps, (Bloom.ofEntities bits es).probes? e = some ps ∧ ps.length = 3 ∧
          ∀ p ∈ ps, p / 64 < (Bloom.ofEntities bits es).words.length) ∧
        (Bloom.ofEntities bits es).enter e = .ok (.ofEntities bits (es ++ [e])) ∧
        ∃ c, (Bloom.ofEntities bits es).ask e = .ok c ∧
          (Bloom.ofEntities bits es).mightContain? e = some c ∧
          (c = true ↔ ∀ p ∈ Bloom.probesIn (Bloom.ofBits bits).bitCount e,
            ∃ d ∈ es, p ∈ Bloom.probesIn (Bloom.ofBits bits).bitCount d)) ∧
      (∀ e ∈ es, (Bloom.ofEntities bits es).mightContain? e = some true) ∧
      ∀ bits' es', (∃ e ∈ es, e ∈ es') →
        (Bloom.ofEntities bits es).intersects (.ofEntities bits' es') = true := by
  refine ⟨overlaps_summary_iff, fun f hf hmatters => ?_, fun f hf hselected => ?_,
    fun bits es => ?_⟩
  · rw [overlaps_summary_iff]
    rcases hmatters with herase | ⟨hknows, hmeets⟩
    · exact .inl ⟨f, hf, herase⟩
    · rw [Window.intersects, Bool.and_eq_true, decide_eq_true_eq, decide_eq_true_eq] at hmeets
      exact .inr ⟨⟨f, hf, hknows⟩, ⟨f, hf, hmeets.1⟩, f, hf, hmeets.2⟩
  · have hholds : (pg.summary bloomBits).entities.Holds f.entity :=
      (covers_summary hf bloomBits).entity
    rw [mayMatch?_summary_eq, Option.some_inj, List.any_eq_true]
    exact ⟨f.entity, by simpa [Selector.selects] using hselected, decide_eq_true hholds⟩
  have hwords := Bloom.words_ofEntities_ne_nil bits es
  have hentered : ∀ e ∈ es, (Bloom.ofEntities bits es).Holds e := fun e he =>
    Bloom.holds_ofEntities_iff.2 fun p hp => ⟨e, he, hp⟩
  refine ⟨fun e => ⟨⟨_, Bloom.probes?_eq hwords e, rfl, fun p =>
    Bloom.div_lt_of_mem_probesIn hwords⟩, ?_, ?_⟩, hentered, fun bits' es' hshared => ?_⟩
  · rw [Bloom.enter_eq hwords, Bloom.ofEntities, Bloom.ofEntities, List.foldl_concat]
  · obtain ⟨c, hc⟩ := Bloom.exists_mightContain?_eq hwords e
    refine ⟨c, by rw [Bloom.ask_eq, hc]; rfl, hc, ?_⟩
    rw [← Bloom.holds_ofEntities_iff, Bloom.Holds, hc, Option.some_inj]
  · obtain ⟨e, he, he'⟩ := hshared
    refine Bloom.Holds.intersects (hentered e he) ?_
    exact Bloom.holds_ofEntities_iff.2 fun p hp => ⟨e, he', hp⟩

/-- A row from the start of time that never ends, of an entity whose hash values wrap around, and
filters of as many words for different numbers of bits. -/
theorem summary_passes_wrapped :
    let e : EntityId := .ofNat (2 ^ 128 - 1)
    let f : Fact := ⟨e, .start, .never, .start, .delete⟩
    let b : Bounds := { (Bounds.asOf 5) with valid := .instant 7 }
    (b.knows f.systemFrom ∧ b.valid.intersects f.validFrom f.validTo) ∧
      ((⟨[f]⟩ : Page).summary 64).overlaps b = true ∧
      (Selector.ofList [e]).selects f.entity ∧
      (Selector.ofList [e]).mayMatch? ((⟨[f]⟩ : Page).summary 64) = some true ∧
      (Bloom.ofEntities 100 [e]).mightContain? e = some true ∧
      (Bloom.ofEntities 100 [e]).intersects (.ofEntities 128 [.ofNat 0, e]) = true := by
  intro e f b
  obtain ⟨-, hoverlaps, hmatches, hfilters⟩ := summary_passes ⟨[f]⟩ 64 b (.ofList [e])
  obtain ⟨-, hentered, hintersects⟩ := hfilters 100 [e]
  have hmatters : b.knows f.systemFrom ∧ b.valid.intersects f.validFrom f.validTo := by decide
  have hselected : (Selector.ofList [e]).selects f.entity := by decide
  exact ⟨hmatters, hoverlaps f (.head _) (.inr hmatters), hselected,
    hmatches f (.head _) hselected, hentered e (.head _),
    hintersects 128 [.ofNat 0, e] ⟨e, .head _, .tail _ (.head _)⟩⟩

end Page

end Bitemporal
