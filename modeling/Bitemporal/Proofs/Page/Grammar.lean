import Mathlib
import Bitemporal.Proofs.Page.Damage

/-!
# The grammar of page records

Reading takes a front part of the bytes, and what it gives is spelled by that part exactly: counts,
ids, instants and kinds have one spelling each, and a value may be any JSON text that is read as it.
So the byte strings that are read are the sealed ones whose body spells columns with as many entries
as it says, and nothing is left over.

## Main definitions

* `Record.Accepts`: reading gives what a front part of the bytes spells.
* `Record.SpellsEntry`, `Record.SpellsColumn`, `Record.SpellsBody`: spellings of parts of a record.

## Main statements

* `Record.Accepts.bind`, `Record.Accepts.takeMany`: reading one thing after the other.
* `Record.Accepts.takeColumns`: what the columns of a body are read from.
* `PageColumns.decode_eq_ok_iff`: the byte strings that are read.
* `Record.SpellsBody.isRectangular`: every column has an entry for every row.
-/

namespace Bitemporal

namespace Json

variable {α : Type} {name : String} {value : α} {f : String × α} {fields : List (String × α)}

theorem eq_or_mem_of_mem_setField (h : f ∈ setField name value fields) :
    f = (name, value) ∨ f ∈ fields := by
  induction fields with
  | nil => simpa [setField] using h
  | cons g rest ih => grind [setField]

theorem mem_of_mem_foldl_setField {acc : List (String × α)}
    (h : f ∈ fields.foldl (fun acc f => setField f.1 f.2 acc) acc) : f ∈ fields ∨ f ∈ acc := by
  induction fields generalizing acc with
  | nil => exact .inr h
  | cons g rest ih =>
    rcases ih h with hrest | hset
    · exact .inl (.tail g hrest)
    · rcases eq_or_mem_of_mem_setField hset with rfl | hacc
      · exact .inl (.head rest)
      · exact .inr hacc

/-- Sorting adds no fields. -/
theorem mem_of_mem_sortFields (h : f ∈ sortFields fields) : f ∈ fields := by
  simpa using mem_of_mem_foldl_setField h

end Json

namespace Record

variable {α β : Type} {bytes front : Bytes} {n index k : Nat}

/-! ## Numbers have one spelling -/

theorem littleEndian_littleEndianValue (bytes : Bytes) :
    littleEndian bytes.length (littleEndianValue bytes) = bytes := by
  induction bytes with
  | nil => rfl
  | cons b rest ih =>
    have hb := b.toNat_lt
    have hlow : UInt8.ofNat (b.toNat + 256 * littleEndianValue rest) = b := by
      apply UInt8.toNat_inj.1
      rw [UInt8.toNat_ofNat']
      omega
    have hhigh : (b.toNat + 256 * littleEndianValue rest) / 256 = littleEndianValue rest := by
      omega
    rw [List.length_cons, littleEndianValue, littleEndian_succ, hlow, hhigh, ih]

/-- Bytes spell a number that fits them if they are its little-endian bytes, and not otherwise. -/
theorem eq_littleEndian_iff (hn : n < 256 ^ k) :
    bytes = littleEndian k n ↔ bytes.length = k ∧ littleEndianValue bytes = n := by
  constructor
  · rintro rfl
    rw [littleEndianValue_littleEndian, Nat.mod_eq_of_lt hn]
    exact ⟨length_littleEndian k n, rfl⟩
  · rintro ⟨rfl, rfl⟩
    exact (littleEndian_littleEndianValue bytes).symm

/-! ## Reading -/

/-- Reading gives what a front part of the bytes spells, and leaves the rest; it gives nothing where
no front part spells anything. -/
def Accepts (m : Reading α) (spells : α → Bytes → Prop) : Prop :=
  ∀ bytes a rest, m bytes = .ok (a, rest) ↔ ∃ front, bytes = front ++ rest ∧ spells a front

namespace Accepts

variable {m : Reading α} {f : α → Reading β} {P Q : α → Bytes → Prop} {R : α → β → Bytes → Prop}

theorem congr (h : Accepts m P) (hPQ : ∀ a front, P a front ↔ Q a front) : Accepts m Q := by
  intro bytes a rest
  rw [h]
  exact exists_congr fun front => and_congr_right fun _ => hPQ a front

protected theorem pure (a : α) : Accepts (pure a) fun b front => b = a ∧ front = [] := by
  intro bytes b rest
  show Except.ok (a, bytes) = Except.ok (b, rest) ↔ _
  simp only [Except.ok.injEq, Prod.mk.injEq]
  constructor
  · rintro ⟨rfl, rfl⟩
    exact ⟨[], rfl, rfl, rfl⟩
  · rintro ⟨front, rfl, rfl, rfl⟩
    exact ⟨rfl, rfl⟩

theorem fail (d : Defect) : Accepts (fail d : Reading α) fun _ _ => False := by
  intro bytes a rest
  simp [Record.fail, StateT.lift, bind, Except.bind]

protected theorem bind (h : Accepts m P) (hf : ∀ a, Accepts (f a) (R a)) :
    Accepts (m >>= f) fun b bytes =>
      ∃ a front back, bytes = front ++ back ∧ P a front ∧ R a b back := by
  intro bytes b rest
  show (m bytes >>= fun x => f x.1 x.2) = Except.ok (b, rest) ↔ _
  constructor
  · intro hrun
    cases hm : m bytes with
    | error d => simp [hm, bind, Except.bind] at hrun
    | ok x =>
      obtain ⟨a, between⟩ := x
      simp only [hm, bind, Except.bind] at hrun
      obtain ⟨front, rfl, ha⟩ := (h bytes a between).1 hm
      obtain ⟨back, rfl, hb⟩ := (hf a between b rest).1 hrun
      exact ⟨front ++ back, by rw [List.append_assoc], a, front, back, rfl, ha, hb⟩
  · rintro ⟨-, rfl, a, front, back, rfl, ha, hb⟩
    have hm := (h (front ++ back ++ rest) a (back ++ rest)).2
      ⟨front, by rw [List.append_assoc], ha⟩
    simp only [hm, bind, Except.bind]
    exact (hf a (back ++ rest) b rest).2 ⟨back, rfl, hb⟩

/-- What has one spelling is followed by what is read on. -/
theorem bind_of_eq {ok : α → Prop} {enc : α → Bytes}
    (h : Accepts m fun a front => ok a ∧ front = enc a) (hf : ∀ a, Accepts (f a) (R a)) :
    Accepts (m >>= f) fun b bytes => ∃ a, ok a ∧ ∃ back, bytes = enc a ++ back ∧ R a b back := by
  refine (h.bind hf).congr fun b bytes => exists_congr fun a => ?_
  constructor
  · rintro ⟨_, back, rfl, ⟨ha, rfl⟩, hb⟩
    exact ⟨ha, back, rfl, hb⟩
  · rintro ⟨ha, back, rfl, hb⟩
    exact ⟨enc a, back, rfl, ⟨ha, rfl⟩, hb⟩

/-- A value that is computed from what is read. -/
theorem map {g : α → β} (h : Accepts m P) :
    Accepts (do return g (← m)) fun b front => ∃ a, b = g a ∧ P a front := by
  refine (h.bind fun a => .pure (g a)).congr fun b front => ?_
  constructor
  · rintro ⟨a, front, back, rfl, ha, rfl, rfl⟩
    exact ⟨a, rfl, by rwa [List.append_nil]⟩
  · rintro ⟨a, rfl, ha⟩
    exact ⟨a, front, [], (List.append_nil _).symm, ha, rfl, rfl⟩

/-- A condition under which reading goes no further. -/
theorem guard {c : Prop} [Decidable c] {d : Defect} (h : Accepts m P) :
    Accepts (if c then Record.fail d else m) fun a front => ¬ c ∧ P a front := by
  split
  next hc => exact (fail d).congr fun a front => by simp [hc]
  next hc => exact h.congr fun a front => by simp [hc]

/-- As many items as asked for, each from its own part. -/
theorem takeMany (h : Accepts m P) (n : Nat) : Accepts (takeMany m n) fun as front =>
    as.length = n ∧ ∃ parts, List.Forall₂ P as parts ∧ front = parts.flatten := by
  induction n with
  | zero =>
    refine (Accepts.pure []).congr fun as front => ?_
    constructor
    · rintro ⟨rfl, rfl⟩
      exact ⟨rfl, [], .nil, rfl⟩
    · rintro ⟨hlength, parts, hparts, rfl⟩
      obtain rfl := List.eq_nil_of_length_eq_zero hlength
      obtain rfl := List.forall₂_nil_left_iff.1 hparts
      exact ⟨rfl, rfl⟩
  | succ n ih =>
    rw [Record.takeMany, List.replicate_succ, List.mapM_cons]
    refine (h.bind fun a => ih.map).congr fun as front => ?_
    constructor
    · rintro ⟨a, front, back, rfl, ha, as, rfl, rfl, parts, hparts, rfl⟩
      exact ⟨rfl, front :: parts, .cons ha hparts, rfl⟩
    · rintro ⟨hlength, parts, hparts, rfl⟩
      cases hparts with
      | nil => cases hlength
      | @cons a part as parts ha hparts =>
        exact ⟨a, part, parts.flatten, rfl, ha, as, rfl, Nat.succ.inj hlength, parts, hparts, rfl⟩

theorem eq_map_of_forall₂ {enc : α → Bytes} {as : List α} {parts : List Bytes}
    (h : List.Forall₂ (fun a front => front = enc a) as parts) : parts = as.map enc := by
  induction h with
  | nil => rfl
  | cons ha _ ih => rw [ha, ih, List.map_cons]

/-- Items that have one spelling each. -/
theorem takeMany_of_eq {enc : α → Bytes} (h : Accepts m fun a front => front = enc a) (n : Nat) :
    Accepts (Record.takeMany m n) fun as front => as.length = n ∧ front = as.flatMap enc := by
  refine (h.takeMany n).congr fun as front => and_congr_right fun _ => ?_
  constructor
  · rintro ⟨parts, hparts, rfl⟩
    rw [eq_map_of_forall₂ hparts, List.flatMap_def]
  · rintro rfl
    exact ⟨as.map enc, List.forall₂_map_right_iff.2 (List.forall₂_same.2 fun _ _ => rfl),
      List.flatMap_def⟩

theorem take (n : Nat) :
    Accepts (take n) fun taken front => taken = front ∧ front.length = n := by
  intro bytes taken rest
  rw [Record.take]
  constructor
  · intro h
    split at h
    · next hlength =>
      obtain ⟨rfl, rfl⟩ := Prod.mk.inj (Except.ok.inj h)
      exact ⟨bytes.take n, (List.take_append_drop n bytes).symm, rfl, hlength⟩
    · cases h
  · rintro ⟨front, rfl, rfl, rfl⟩
    simp

theorem takeCount : Accepts takeCount fun n front => n < 2 ^ 32 ∧ front = count n := by
  refine (take 4).map.congr fun n front => ?_
  constructor
  · rintro ⟨taken, rfl, rfl, hlength⟩
    have hlt := littleEndianValue_lt taken
    rw [hlength] at hlt
    exact ⟨hlt, (eq_littleEndian_iff hlt).2 ⟨hlength, rfl⟩⟩
  · rintro ⟨hlt, rfl⟩
    obtain ⟨hlength, hvalue⟩ :=
      (eq_littleEndian_iff (show n < 256 ^ 4 from hlt)).1 (rfl : count n = _)
    exact ⟨count n, hvalue.symm, rfl, hlength⟩

theorem takeCounted :
    Accepts takeCounted fun text front => text.length < 2 ^ 32 ∧ front = counted text := by
  have hrest (n : Nat) : Accepts (do
      let left ← get
      if (left.take n).length < n then Record.fail (.overrun n left.length) else Record.take n)
        fun text front => text = front ∧ front.length = n := by
    intro bytes text rest
    show (if (bytes.take n).length < n then Record.fail (.overrun n bytes.length)
      else Record.take n) bytes = _ ↔ _
    split
    · next hshort =>
      constructor
      · intro h
        cases h
      · rintro ⟨front, rfl, rfl, rfl⟩
        simp at hshort
    · exact take n bytes text rest
  refine (takeCount.bind_of_eq hrest).congr fun text front => ?_
  constructor
  · rintro ⟨n, hlt, back, rfl, rfl, rfl⟩
    exact ⟨hlt, rfl⟩
  · rintro ⟨hlt, rfl⟩
    exact ⟨text.length, hlt, text, rfl, rfl, rfl⟩

theorem takeEntity : Accepts takeEntity fun e front => front = e.toBytes := by
  refine (take EntityId.byteCount).map.congr fun e front => ?_
  have hvalue : EntityId.bigEndianValue front = littleEndianValue front.reverse := by
    rw [← bigEndianValue_reverse, List.reverse_reverse]
  have hspelled (hlt : e.bits.toNat < 256 ^ 16) : front.reverse = littleEndian 16 _ ↔ _ :=
    eq_littleEndian_iff hlt
  have hbits : e.bits.toNat < 256 ^ 16 := e.bits.isLt
  rw [toBytes_eq, ← List.reverse_eq_iff, hspelled hbits, List.length_reverse, ← hvalue]
  constructor
  · rintro ⟨taken, rfl, rfl, hlength⟩
    have hlt := littleEndianValue_lt taken.reverse
    rw [List.length_reverse, hlength, ← hvalue] at hlt
    exact ⟨hlength, by rw [EntityId.ofNat, BitVec.toNat_ofNat]; exact (Nat.mod_eq_of_lt hlt).symm⟩
  · rintro ⟨hlength, heq⟩
    exact ⟨front, by rw [heq, EntityId.ofNat, BitVec.ofNat_toNat, BitVec.setWidth_eq], rfl,
      hlength⟩

theorem takeInstant : Accepts takeInstant fun t front => front = instant t := by
  refine (take 8).map.congr fun t front => ?_
  rw [instant, eq_littleEndian_iff (show t.toUInt64.toNat < 256 ^ 8 from t.toUInt64.toNat_lt)]
  constructor
  · rintro ⟨taken, rfl, rfl, hlength⟩
    have hlt := littleEndianValue_lt taken
    rw [hlength] at hlt
    refine ⟨hlength, ?_⟩
    rw [instantValue, UInt64.toUInt64_toInt64, UInt64.toNat_ofNat']
    exact (Nat.mod_eq_of_lt hlt).symm
  · rintro ⟨hlength, heq⟩
    exact ⟨front, by rw [instantValue, heq, UInt64.ofNat_toNat, Int64.toInt64_toUInt64], rfl,
      hlength⟩

end Accepts

/-! ## Spellings -/

/-- The spellings of an entry: a mark, and for a value any JSON text that is read as it. -/
def SpellsEntry : Option Json → Bytes → Prop
  | none, bytes => bytes = [0]
  | some v, bytes => ∃ text : Bytes, text.length < 2 ^ 32 ∧
      (Bytes.text? text).bind Json.ofString? = some v ∧ bytes = 1 :: counted text

/-- The spellings of a content column over so many rows: its name, and an entry for every row. -/
def SpellsColumn (rows : Nat) (column : String × List (Option Json)) (bytes : Bytes) : Prop :=
  column.2.length = rows ∧ ∃ (name : Bytes) (parts : List Bytes), name.length < 2 ^ 32 ∧
    Bytes.text? name = some column.1 ∧ List.Forall₂ SpellsEntry column.2 parts ∧
    bytes = counted name ++ parts.flatten

/-- The part of a body before its content columns. -/
def keys (index n : Nat) (c : PageColumns) : Bytes :=
  count index ++ count n ++ c.entities.flatMap EntityId.toBytes ++ c.validFroms.flatMap instant ++
    c.validTos.flatMap instant ++ c.systemFroms.flatMap instant ++ c.kinds.map FactKind.tag

/-- The spellings of a body: the page number and the number of rows, as many ids, times and kinds,
and content columns over as many rows, in any order. -/
structure SpellsBody (index n : Nat) (c : PageColumns) (bytes : Bytes) : Prop where
  index_lt : index < 2 ^ 32
  rows_lt : n < 2 ^ 32
  entities : c.entities.length = n
  validFroms : c.validFroms.length = n
  validTos : c.validTos.length = n
  systemFroms : c.systemFroms.length = n
  kinds : c.kinds.length = n
  content : ∃ columns parts, columns.length < 2 ^ 32 ∧ c.content = Json.sortFields columns ∧
    List.Forall₂ (SpellsColumn n) columns parts ∧
    bytes = keys index n c ++ count columns.length ++ parts.flatten

namespace Accepts

theorem takeEntry (column : String) : Accepts (takeEntry column) SpellsEntry := by
  refine ((take 1).bind (R := fun taken v front =>
    taken.headD 0 = 0 ∧ v = none ∧ front = [] ∨
      taken.headD 0 = 1 ∧ ∃ (x : Json) (text : Bytes), v = some x ∧ text.length < 2 ^ 32 ∧
        (Bytes.text? text).bind Json.ofString? = some x ∧ front = counted text)
    fun taken => ?_).congr fun v front => ?_
  · dsimp only
    generalize taken.headD 0 = mark
    split_ifs with hnone hsome
    · exact (Accepts.pure none).congr fun v front => by simp [hnone]
    · refine (takeCounted.bind_of_eq (R := fun text v front => ∃ x,
        (Bytes.text? text).bind Json.ofString? = some x ∧ v = some x ∧ front = [])
        fun text => ?_).congr fun v front => ?_
      · cases (Bytes.text? text).bind Json.ofString? with
        | none => exact (fail _).congr fun v front => by simp
        | some x => exact (Accepts.pure (some x)).congr fun v front => by simp
      rw [or_iff_right fun h => hnone h.1, and_iff_right hsome]
      constructor
      · rintro ⟨text, hlt, _, rfl, x, hx, rfl, rfl⟩
        exact ⟨x, text, rfl, hlt, hx, List.append_nil _⟩
      · rintro ⟨x, text, rfl, hlt, hx, rfl⟩
        exact ⟨text, hlt, [], (List.append_nil _).symm, x, hx, rfl, rfl⟩
    · exact (fail _).congr fun v front => by simp [hnone, hsome]
  constructor
  · rintro ⟨_, front, back, rfl, ⟨rfl, hlength⟩, h⟩
    obtain ⟨mark, rfl⟩ := List.length_eq_one_iff.1 hlength
    rcases h with ⟨hmark, rfl, rfl⟩ | ⟨hmark, x, text, rfl, hlt, hx, rfl⟩
    · exact congrArg ([·]) hmark
    · exact ⟨text, hlt, hx, congrArg (· :: counted text) hmark⟩
  · cases v with
    | none =>
      rintro rfl
      exact ⟨[0], [0], [], rfl, ⟨rfl, rfl⟩, .inl ⟨rfl, rfl, rfl⟩⟩
    | some x =>
      rintro ⟨text, hlt, hx, rfl⟩
      exact ⟨[1], [1], counted text, rfl, ⟨rfl, rfl⟩, .inr ⟨rfl, x, text, rfl, hlt, hx, rfl⟩⟩

theorem takeColumn (rows : Nat) : Accepts (takeColumn rows) (SpellsColumn rows) := by
  refine (takeCounted.bind_of_eq (R := fun name column front => Bytes.text? name = some column.1 ∧
    column.2.length = rows ∧ ∃ parts, List.Forall₂ SpellsEntry column.2 parts ∧
      front = parts.flatten) fun name => ?_).congr fun column front => ?_
  · cases Bytes.text? name with
    | none => exact (fail _).congr fun column front => by simp
    | some name =>
      refine ((takeEntry name).takeMany rows).map.congr fun column front => ?_
      constructor
      · rintro ⟨entries, rfl, hentries⟩
        exact ⟨rfl, hentries⟩
      · rintro ⟨heq, hentries⟩
        obtain rfl := Option.some.inj heq
        exact ⟨column.2, rfl, hentries⟩
  constructor
  · rintro ⟨name, hlt, _, rfl, htext, hlength, parts, hparts, rfl⟩
    exact ⟨hlength, name, parts, hlt, htext, hparts, rfl⟩
  · rintro ⟨hlength, name, parts, hlt, htext, hparts, rfl⟩
    exact ⟨name, hlt, parts.flatten, rfl, htext, hlength, parts, hparts, rfl⟩

theorem kindOf_eq_ok_iff {tag : UInt8} {kind : FactKind} :
    kindOf tag = .ok kind ↔ tag = kind.tag := by
  constructor
  · intro h
    unfold kindOf FactKind.ofTag? at h
    split_ifs at h with hput hdelete herase <;> cases h <;> assumption
  · rintro rfl
    cases kind <;> rfl

theorem mapM_kindOf_eq_ok_iff {tags : Bytes} {kinds : List FactKind} :
    tags.mapM kindOf = .ok kinds ↔ tags = kinds.map FactKind.tag := by
  induction tags generalizing kinds with
  | nil => cases kinds <;> simp [pure, Except.pure]
  | cons tag tags ih =>
    rw [List.mapM_cons]
    constructor
    · intro h
      cases hkind : kindOf tag with
      | error d => simp [hkind, bind, Except.bind] at h
      | ok kind =>
        cases hrest : tags.mapM kindOf with
        | error d => simp [hkind, hrest, bind, Except.bind] at h
        | ok rest =>
          simp only [hkind, hrest, bind, Except.bind, pure, Except.pure, Except.ok.injEq] at h
          rw [← h, List.map_cons, kindOf_eq_ok_iff.1 hkind, ih.1 hrest]
    · intro h
      obtain ⟨kind, rest, rfl, rfl, hrest⟩ := List.map_eq_cons_iff.1 h.symm
      simp only [kindOf_eq_ok_iff.2 rfl, ih.2 hrest.symm, bind, Except.bind, pure, Except.pure]

theorem liftKinds (tags : Bytes) : Accepts (StateT.lift (tags.mapM kindOf)) fun kinds front =>
    tags = kinds.map FactKind.tag ∧ front = [] := by
  intro bytes kinds rest
  simp only [← mapM_kindOf_eq_ok_iff]
  cases tags.mapM kindOf with
  | error d => simp [StateT.lift, bind, Except.bind]
  | ok found =>
    simp only [StateT.lift, bind, Except.bind, pure, Except.pure, Except.ok.injEq, Prod.mk.injEq]
    constructor
    · rintro ⟨rfl, rfl⟩
      exact ⟨[], rfl, rfl, rfl⟩
    · rintro ⟨front, rfl, rfl, rfl⟩
      exact ⟨rfl, rfl⟩

/-- The columns of a body. -/
theorem takeColumns (index sealedLength : Nat) :
    Accepts (takeColumns index sealedLength) fun c front =>
      ∃ n, n ≤ sealedLength / rowLength ∧ SpellsBody index n c front := by
  have hentities := takeMany_of_eq takeEntity
  have hinstants := takeMany_of_eq takeInstant
  have hcontent (n count : Nat) := (takeColumn n).takeMany count
  refine (takeCount.bind_of_eq fun found => .guard (takeCount.bind_of_eq fun n => .guard
    ((hentities n).bind_of_eq fun entities => (hinstants n).bind_of_eq fun validFroms =>
      (hinstants n).bind_of_eq fun validTos => (hinstants n).bind_of_eq fun systemFroms =>
        (take n).bind fun tags => (liftKinds tags).bind fun kinds =>
          takeCount.bind_of_eq fun count => (hcontent n count).bind fun content =>
            .pure _))).congr fun c front => ?_
  constructor
  · rintro ⟨found, hindex, _, rfl, hfound, n, hn, _, rfl, hrows, entities, hentities, _, rfl,
      validFroms, hfroms, _, rfl, validTos, htos, _, rfl, systemFroms, hsystems, _, rfl,
      tags, _, _, rfl, ⟨rfl, htags⟩, kinds, _, _, rfl, ⟨rfl, rfl⟩, count, hcount, _, rfl,
      columns, _, _, rfl, ⟨rfl, parts, hparts, rfl⟩, rfl, rfl⟩
    obtain rfl := not_not.1 hfound
    refine ⟨n, not_lt.1 hrows, hindex, hn, hentities, hfroms, htos, hsystems,
      by rwa [List.length_map] at htags, columns, parts, hcount, rfl, hparts, ?_⟩
    simp [keys]
  · rintro ⟨n, hrows, h⟩
    obtain ⟨columns, parts, hcount, hcontent, hparts, rfl⟩ := h.content
    obtain ⟨entities, validFroms, validTos, systemFroms, kinds, content⟩ := c
    obtain rfl := hcontent
    refine ⟨index, h.index_lt, _, ?_, not_not.2 rfl, n, h.rows_lt, _, rfl, not_lt.2 hrows,
      entities, h.entities, _, rfl, validFroms, h.validFroms, _, rfl, validTos, h.validTos, _, rfl,
      systemFroms, h.systemFroms, _, rfl, _, _, _, rfl, ⟨rfl, ?_⟩, kinds, [], _, rfl, ⟨rfl, rfl⟩,
      columns.length, hcount, _, rfl, columns, _, [], rfl, ⟨rfl, parts, hparts, rfl⟩, rfl, rfl⟩
    · simp [keys]
    · rw [List.length_map, h.kinds]

end Accepts

/-! ## Bodies -/

theorem length_keys {c : PageColumns} {body : Bytes} (h : SpellsBody index n c body) :
    (keys index n c).length = 8 + rowLength * n := by
  have hids : (c.entities.flatMap EntityId.toBytes).length = 16 * c.entities.length :=
    length_flatMap_eq fun e _ => length_toBytes e
  have hinstants (ts : List Instant) : (ts.flatMap instant).length = 8 * ts.length :=
    length_flatMap_eq fun t _ => length_littleEndian 8 _
  simp only [keys, List.length_append, List.length_map, hids, hinstants, length_count,
    h.entities, h.validFroms, h.validTos, h.systemFroms, h.kinds, rowLength]
  omega

theorem length_of_mem {columns : List (String × List (Option Json))} {parts : List Bytes}
    (h : List.Forall₂ (SpellsColumn n) columns parts) :
    ∀ column ∈ columns, column.2.length = n := by
  induction h with
  | nil => simp
  | cons hcolumn _ ih => exact List.forall_mem_cons.2 ⟨hcolumn.1, ih⟩

namespace SpellsBody

variable {c : PageColumns} {body : Bytes}

/-- A body is long enough for its rows. -/
theorem le_length (h : SpellsBody index n c body) : 12 + rowLength * n ≤ body.length := by
  obtain ⟨columns, parts, -, -, -, rfl⟩ := h.content
  simp only [List.length_append, length_keys h, length_count]
  omega

theorem index_eq (h : SpellsBody index n c body) :
    littleEndianValue (body.take 4) = index := by
  obtain ⟨columns, parts, -, -, -, rfl⟩ := h.content
  simp only [keys, List.append_assoc, List.take_left' (length_count index)]
  rw [count, littleEndianValue_littleEndian]
  exact Nat.mod_eq_of_lt h.index_lt

theorem rows_eq (h : SpellsBody index n c body) :
    littleEndianValue ((body.drop 4).take 4) = n := by
  obtain ⟨columns, parts, -, -, -, rfl⟩ := h.content
  simp only [keys, List.append_assoc, List.drop_left' (length_count index),
    List.take_left' (length_count n)]
  rw [count, littleEndianValue_littleEndian]
  exact Nat.mod_eq_of_lt h.rows_lt

/-- Every column has an entry for every row. -/
theorem isRectangular (h : SpellsBody index n c body) : c.IsRectangular n := by
  obtain ⟨columns, parts, -, hcontent, hparts, -⟩ := h.content
  refine ⟨h.entities, h.validFroms, h.validTos, h.systemFroms, h.kinds, fun column hcolumn => ?_⟩
  rw [hcontent] at hcolumn
  exact length_of_mem hparts column (Json.mem_of_mem_sortFields hcolumn)

end SpellsBody

/-- A sealed string is a body with its length in front and the checksum of both behind. -/
theorem IsSealed.exists_eq_frame (h : IsSealed bytes) (hlength : 8 ≤ bytes.length) :
    bytes = frame ((bytes.take (bytes.length - 4)).drop 4) := by
  have hfront : bytes.take 4 = count bytes.length := by
    have hlt := littleEndianValue_lt (bytes.take 4)
    rw [h.length, List.length_take_of_le (by omega)] at hlt
    exact (eq_littleEndian_iff hlt).2 ⟨List.length_take_of_le (by omega), h.length⟩
  have hback : bytes.drop (bytes.length - 4) = checkBytes (bytes.take (bytes.length - 4)) :=
    (eq_littleEndian_iff (BitVec.isLt _)).2 ⟨by rw [List.length_drop]; omega, h.checksum⟩
  have hbody : ((bytes.take (bytes.length - 4)).drop 4).length = bytes.length - 8 := by
    rw [List.length_drop, List.length_take_of_le (Nat.sub_le _ _)]
    omega
  have hunsealed : count bytes.length ++ (bytes.take (bytes.length - 4)).drop 4 =
      bytes.take (bytes.length - 4) := by
    have hcut := List.take_append_drop 4 (bytes.take (bytes.length - 4))
    rwa [List.take_take, Nat.min_eq_left (by omega), hfront] at hcut
  rw [frame, hbody, show 4 + (bytes.length - 8) + 4 = bytes.length by omega]
  rw [hunsealed, ← hback, List.take_append_drop]

end Record

open Record

/-- The byte strings that are read: the sealed ones whose body spells columns. -/
theorem PageColumns.decode_eq_ok_iff {bytes : Bytes} {index : Nat} {c : PageColumns} :
    PageColumns.decode bytes index = .ok c ↔
      ∃ n body, bytes = frame body ∧ bytes.length < 2 ^ 32 ∧ SpellsBody index n c body := by
  constructor
  · intro h
    have hfits := (PageColumns.lt_of_decode h).1
    simp only [PageColumns.decode, bind, Except.bind, StateT.run] at h
    split_ifs at h with hshort hstored hchecksum
    split at h
    · cases h
    next columns hread =>
      split_ifs at h with hrest
      obtain ⟨columns, rest⟩ := columns
      obtain rfl := Except.ok.inj h
      obtain rfl := List.isEmpty_iff.1 hrest
      obtain ⟨body, hbody, n, -, hspelled⟩ := (Accepts.takeColumns _ _ _ _ _).1 hread
      have hsealed : IsSealed bytes := ⟨not_not.1 hstored, (not_not.1 hchecksum).symm⟩
      have hframe := hsealed.exists_eq_frame (by rw [minLength] at hshort; omega)
      rw [hbody, List.append_nil] at hframe
      exact ⟨n, body, hframe, hfits, hspelled⟩
  · rintro ⟨n, body, rfl, hfits, hspelled⟩
    have hlength := length_frame body
    have hrows := hspelled.le_length
    have hbody : ((frame body).take ((frame body).length - 4)).drop 4 = body := by
      rw [take_frame, List.drop_left' (length_count _)]
    have hsealed : ((frame body).take ((frame body).length - 4)).length = 4 + body.length := by
      rw [take_frame, length_unsealed, hlength, Nat.add_sub_cancel]
    have hread := (Accepts.takeColumns index (4 + body.length) body c []).2
      ⟨body, (List.append_nil body).symm, n, by rw [rowLength] at hrows ⊢; omega, hspelled⟩
    rw [PageColumns.decode, if_neg (by rw [minLength]; omega)]
    simp only [stored_frame hfits, checksum_frame, hbody, hsealed, ne_eq, not_true, if_false]
    simp only [StateT.run, hread]
    rfl

end Bitemporal
