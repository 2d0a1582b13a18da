import Mathlib
import Bitemporal.Error
import Bitemporal.Proofs.Page.Grammar

/-!
# Reading at positions

A record can be read in place, by a position that moves through its buffer. Counts and lengths in
the record are whatever its bytes say, and they drive every loop, but no slice is ever taken outside
the buffer and no position passes its end: reading in place does what reading a list of bytes does.
The columns that it gives all have as many entries as the record says it has rows, so a row can be
put together at every position below that number.

## Main definitions

* `Bytes.slice?`: a part of a buffer, if it lies within.
* `Record.Probing`: a step of reading in place.
* `Record.Tracks`: reading in place does what reading a list does.
* `PageColumns.decodeAt?`: a record read in place.
* `PageColumns.fact?`, `PageColumns.copyRow?`: a row put together from columns.

## Main statements

* `PageColumns.decodeAt?_eq`: reading in place stays inside the buffer.
* `PageColumns.fact?_eq`, `PageColumns.copyRow?_eq`: the rows of rectangular columns.
* `Page.decode_safe`: what any byte string is read as.
-/

namespace Bitemporal

/-- The bytes from one position up to another, if these are positions in that order. -/
def Bytes.slice? (bytes : Bytes) (first past : Nat) : Option Bytes :=
  if first ≤ past ∧ past ≤ bytes.length then some ((bytes.take past).drop first) else none

theorem Bytes.slice?_eq {bytes : Bytes} {first past : Nat} (h : first ≤ past)
    (hpast : past ≤ bytes.length) :
    bytes.slice? first past = some ((bytes.drop first).take (past - first)) := by
  rw [slice?, if_pos ⟨h, hpast⟩, List.take_drop, Nat.add_sub_cancel' h]

namespace Record

variable {α β : Type} {buffer : Bytes}

/-- A step of reading in place, which moves a position. It comes to nothing where it would leave its
buffer. -/
abbrev Probing (α : Type) := StateT Nat (ExceptT Defect Option) α

namespace Probing

/-- That many bytes. -/
def take (buffer : Bytes) (n : Nat) : Probing Bytes := do
  let first ← get
  if buffer.length < first + n then throw .truncated
  else
    let bytes ← (buffer.slice? first (first + n) : Option Bytes)
    set (first + n)
    return bytes

/-- A count. -/
def takeCount (buffer : Bytes) : Probing Nat := do return littleEndianValue (← take buffer 4)

/-- A byte string behind its length. -/
def takeCounted (buffer : Bytes) : Probing Bytes := do
  let n ← takeCount buffer
  let left ← (buffer.slice? (← get) buffer.length : Option Bytes)
  if n > left.length then throw (.overrun n left.length) else take buffer n

/-- As many items as asked for, one after the other. -/
def takeMany (item : Probing α) (n : Nat) : Probing (List α) :=
  (List.replicate n ()).mapM fun () => item

/-- An entity. -/
def takeEntity (buffer : Bytes) : Probing EntityId := do
  return .ofNat (EntityId.bigEndianValue (← take buffer EntityId.byteCount))

/-- An instant. -/
def takeInstant (buffer : Bytes) : Probing Instant := do return instantValue (← take buffer 8)

/-- An entry of the content column of that name. -/
def takeEntry (buffer : Bytes) (column : String) : Probing (Option Json) := do
  let mark := (← take buffer 1).headD 0
  if mark = 0 then return none
  else if mark = 1 then
    match (Bytes.text? (← takeCounted buffer)).bind Json.ofString? with
    | some v => return some v
    | none => throw (.invalidValue column)
  else throw (.invalidMark mark column)

/-- A content column over that many rows. -/
def takeColumn (buffer : Bytes) (rows : Nat) : Probing (String × List (Option Json)) := do
  match Bytes.text? (← takeCounted buffer) with
  | none => throw .invalidName
  | some name => return (name, ← takeMany (takeEntry buffer name) rows)

/-- The kinds of tags. -/
def kindsOf (tags : Bytes) : Probing (List FactKind) :=
  match tags.mapM kindOf with
  | .ok kinds => return kinds
  | .error d => throw d

/-- The columns of a body whose record has `sealedLength` bytes before its checksum. -/
def takeColumns (buffer : Bytes) (index sealedLength : Nat) : Probing PageColumns := do
  let found ← takeCount buffer
  if found ≠ index then throw (.wrongPage index found)
  else
    let n ← takeCount buffer
    if n > sealedLength / rowLength then throw (.tooManyRows n)
    else
      let entities ← takeMany (takeEntity buffer) n
      let validFroms ← takeMany (takeInstant buffer) n
      let validTos ← takeMany (takeInstant buffer) n
      let systemFroms ← takeMany (takeInstant buffer) n
      let kinds ← kindsOf (← take buffer n)
      let content ← takeMany (takeColumn buffer n) (← takeCount buffer)
      return ⟨entities, validFroms, validTos, systemFroms, kinds, Json.sortFields content⟩

end Probing

/-! ## Inside the buffer -/

/-- From every position in the buffer, reading in place does what reading the bytes from there on
does, and ends at a position in the buffer again. -/
def Tracks (buffer : Bytes) (probe : Probing α) (m : Reading α) : Prop :=
  ∀ first ≤ buffer.length,
    (∃ d, m (buffer.drop first) = .error d ∧ (probe.run first).run = some (.error d)) ∨
    ∃ a past, past ≤ buffer.length ∧ m (buffer.drop first) = .ok (a, buffer.drop past) ∧
      (probe.run first).run = some (.ok (a, past))

namespace Tracks

variable {probe : Probing α} {m : Reading α}

protected theorem pure (a : α) : Tracks buffer (pure a) (pure a) := by
  intro first hfirst
  exact .inr ⟨a, first, hfirst, rfl, rfl⟩

theorem fail (d : Defect) : Tracks buffer (throw d : Probing α) (fail d) := by
  intro first _
  exact .inl ⟨d, rfl, rfl⟩

protected theorem bind {next : α → Probing β} {f : α → Reading β} (h : Tracks buffer probe m)
    (hnext : ∀ a, Tracks buffer (next a) (f a)) : Tracks buffer (probe >>= next) (m >>= f) := by
  intro first hfirst
  have hprobe : ((probe >>= next).run first).run =
      (probe.run first).run.bind fun
        | .ok x => ((next x.1).run x.2).run
        | .error d => some (.error d) := by
    rw [StateT.run_bind, ExceptT.run_bind]
    cases (probe.run first).run with
    | none => rfl
    | some result => cases result <;> rfl
  have hm : (m >>= f) (buffer.drop first) = (m (buffer.drop first) >>= fun x => f x.1 x.2) := rfl
  rw [hprobe, hm]
  rcases h first hfirst with ⟨d, hm, hprobe⟩ | ⟨a, past, hpast, hm, hprobe⟩
  · exact .inl ⟨d, by rw [hm]; rfl, by rw [hprobe]; rfl⟩
  · rw [hm, hprobe]
    exact hnext a past hpast

theorem map {g : α → β} (h : Tracks buffer probe m) :
    Tracks buffer (do return g (← probe)) (do return g (← m)) := h.bind fun a => .pure (g a)

theorem takeMany (h : Tracks buffer probe m) (n : Nat) :
    Tracks buffer (Probing.takeMany probe n) (takeMany m n) := by
  induction n with
  | zero => exact .pure []
  | succ n ih =>
    rw [Probing.takeMany, Record.takeMany, List.replicate_succ, List.mapM_cons, List.mapM_cons]
    exact h.bind fun a => ih.map

theorem take (n : Nat) : Tracks buffer (Probing.take buffer n) (take n) := by
  intro first hfirst
  have hlength : ((buffer.drop first).take n).length = min n (buffer.length - first) := by simp
  by_cases hn : buffer.length < first + n
  · left
    refine ⟨.truncated, ?_, ?_⟩
    · simp only [Record.take, hlength]
      exact if_neg (by omega)
    · simp [Probing.take, hn]
  · right
    refine ⟨(buffer.drop first).take n, first + n, by omega, ?_, ?_⟩
    · simp only [Record.take, hlength, List.drop_drop]
      exact if_pos (by omega)
    · have hslice : buffer.slice? first (first + n) = _ :=
        Bytes.slice?_eq (Nat.le_add_right first n) (by omega)
      rw [Nat.add_sub_cancel_left] at hslice
      simp [Probing.take, hn, hslice]
      rfl

theorem takeCount : Tracks buffer (Probing.takeCount buffer) takeCount := (take 4).map

theorem takeCounted : Tracks buffer (Probing.takeCounted buffer) takeCounted := by
  refine takeCount.bind fun n => ?_
  intro first hfirst
  have hslice : buffer.slice? first buffer.length = some (buffer.drop first) := by
    rw [Bytes.slice?_eq hfirst le_rfl, List.take_of_length_le (by simp)]
  have hshort : ((buffer.drop first).take n).length < n ↔ n > (buffer.drop first).length := by
    rw [List.length_take]
    omega
  have hread : (do
      let left ← get
      if (left.take n).length < n then Record.fail (.overrun n left.length)
      else Record.take n : Reading Bytes) (buffer.drop first) =
        (if n > (buffer.drop first).length then
          Record.fail (.overrun n (buffer.drop first).length) else Record.take n)
            (buffer.drop first) := by
    simp only [← hshort]
    rfl
  have hprobe : ((do
      let left ← (buffer.slice? (← get) buffer.length : Option Bytes)
      if n > left.length then throw (.overrun n left.length)
      else Probing.take buffer n : Probing Bytes).run first).run =
        (((if n > (buffer.drop first).length then
          throw (.overrun n (buffer.drop first).length)
            else Probing.take buffer n) : Probing Bytes).run first).run := by
    simp [hslice]
  rw [hread, hprobe]
  split_ifs
  · exact fail _ first hfirst
  · exact take n first hfirst

theorem takeEntity : Tracks buffer (Probing.takeEntity buffer) takeEntity :=
  (take EntityId.byteCount).map

theorem takeInstant : Tracks buffer (Probing.takeInstant buffer) takeInstant := (take 8).map

theorem takeEntry (column : String) :
    Tracks buffer (Probing.takeEntry buffer column) (takeEntry column) := by
  refine (take 1).bind fun taken => ?_
  dsimp only
  split_ifs
  · exact .pure none
  · refine takeCounted.bind fun text => ?_
    cases (Bytes.text? text).bind Json.ofString? with
    | none => exact fail _
    | some v => exact .pure (some v)
  · exact fail _

theorem takeColumn (rows : Nat) :
    Tracks buffer (Probing.takeColumn buffer rows) (takeColumn rows) := by
  refine takeCounted.bind fun name => ?_
  cases Bytes.text? name with
  | none => exact fail _
  | some name => exact ((takeEntry name).takeMany rows).map

theorem kindsOf (tags : Bytes) :
    Tracks buffer (Probing.kindsOf tags) (StateT.lift (tags.mapM kindOf)) := by
  rw [Probing.kindsOf]
  cases tags.mapM kindOf with
  | error d => exact fail d
  | ok kinds => exact .pure kinds

theorem takeColumns (index sealedLength : Nat) :
    Tracks buffer (Probing.takeColumns buffer index sealedLength)
      (takeColumns index sealedLength) := by
  refine takeCount.bind fun found => ?_
  split_ifs
  · exact fail _
  refine takeCount.bind fun n => ?_
  split_ifs
  · exact fail _
  refine (takeEntity.takeMany n).bind fun entities => ?_
  refine (takeInstant.takeMany n).bind fun validFroms => ?_
  refine (takeInstant.takeMany n).bind fun validTos => ?_
  refine (takeInstant.takeMany n).bind fun systemFroms => ?_
  refine (take n).bind fun tags => (kindsOf tags).bind fun kinds => ?_
  exact takeCount.bind fun count => ((takeColumn n).takeMany count).map

/-- A whole buffer read in place: nothing is left over where the position has come to its end. -/
theorem run {probe : Probing α} {m : Reading α} (h : Tracks buffer probe m) :
    (∃ d, m.run buffer = .error d ∧ (probe.run 0).run = some (.error d)) ∨
      ∃ a past, m.run buffer = .ok (a, buffer.drop past) ∧
        (probe.run 0).run = some (.ok (a, past)) ∧
        (past = buffer.length ↔ (buffer.drop past).isEmpty) := by
  rcases h 0 (Nat.zero_le _) with ⟨d, hm, hprobe⟩ | ⟨a, past, hpast, hm, hprobe⟩
  · rw [List.drop_zero] at hm
    exact .inl ⟨d, hm, hprobe⟩
  · rw [List.drop_zero] at hm
    refine .inr ⟨a, past, hm, hprobe, ?_⟩
    rw [List.isEmpty_iff, List.drop_eq_nil_iff]
    omega

end Tracks

end Record

open Record

namespace PageColumns

variable {record : Bytes} {index n k : Nat} {c : PageColumns}

/-- The columns of a record that must have a given page number, read in place. -/
def decodeAt? (record : Bytes) (index : Nat) : ExceptT Defect Option PageColumns := do
  if record.length < minLength then throw (.tooShort record.length)
  else
    let stored := littleEndianValue (← (record.slice? 0 4 : Option Bytes))
    if stored ≠ record.length then throw (.wrongLength stored record.length)
    else
      let sealedLength ← (stored.psub 4 : Option Nat)
      let unsealed ← (record.slice? 0 sealedLength : Option Bytes)
      let checksum := littleEndianValue
        (← (record.slice? sealedLength (sealedLength + 4) : Option Bytes))
      let computed := (Crc32.checksum unsealed).toNat
      if computed ≠ checksum then throw (.wrongChecksum computed checksum)
      else
        let body ← (record.slice? 4 sealedLength : Option Bytes)
        let (columns, past) ← (Probing.takeColumns body index sealedLength).run 0
        if past = body.length then return columns else throw .trailing

/-- The parts of a record that is long enough all lie within it. -/
theorem slices_of_minLength_le (h : minLength ≤ record.length) :
    record.slice? 0 4 = some (record.take 4) ∧
    record.length.psub 4 = some (record.length - 4) ∧
    record.slice? 0 (record.length - 4) = some (record.take (record.length - 4)) ∧
    record.slice? (record.length - 4) (record.length - 4 + 4) =
      some (record.drop (record.length - 4)) ∧
    record.slice? 4 (record.length - 4) =
      some ((record.take (record.length - 4)).drop 4) := by
  have hlong : 8 ≤ record.length := by
    rw [minLength] at h
    omega
  refine ⟨?_, Nat.psub_eq_some.2 (by omega), ?_, ?_, if_pos ⟨by omega, by omega⟩⟩
  · rw [Bytes.slice?_eq (Nat.zero_le 4) (by omega), List.drop_zero]
  · rw [Bytes.slice?_eq (Nat.zero_le _) (by omega), List.drop_zero, Nat.sub_zero]
  · rw [Bytes.slice?_eq (by omega) (by omega), Nat.add_sub_cancel_left, List.take_of_length_le]
    rw [List.length_drop]
    omega

/-- Reading in place never leaves the buffer, and gives what reading a list of bytes gives. -/
theorem decodeAt?_eq (record : Bytes) (index : Nat) :
    (decodeAt? record index).run = some (PageColumns.decode record index) := by
  rw [decodeAt?, PageColumns.decode]
  split_ifs with hshort
  · rfl
  obtain ⟨hfront, hlength, hunsealed, hback, hbody⟩ := slices_of_minLength_le (not_lt.1 hshort)
  have hthere {α β : Type} (a : α) (f : α → ExceptT Defect Option β) :
      (liftM (some a) : ExceptT Defect Option α) >>= f = f a := rfl
  simp only [hfront, hthere]
  by_cases hstored : littleEndianValue (record.take 4) = record.length
  swap
  · rw [if_pos hstored, if_pos hstored]
    rfl
  simp only [hstored, ne_eq, not_true, if_false, hlength, hunsealed, hback, hbody, hthere]
  split_ifs with hchecksum
  swap
  · rfl
  have hsealed : (record.take (record.length - 4)).length = record.length - 4 :=
    List.length_take_of_le (Nat.sub_le _ _)
  rw [hsealed, ExceptT.run_bind]
  rcases (Tracks.takeColumns index (record.length - 4)).run with
    ⟨d, hm, hprobe⟩ | ⟨c, past, hm, hprobe, hend⟩
  · rw [hprobe, hm]
    rfl
  · rw [hprobe, hm]
    simp only [bind, Option.bind, Except.bind, hend]
    split_ifs <;> rfl

/-! ## Rows of columns -/

/-- The content columns of some names, or all of them. -/
def shownColumns (c : PageColumns) : Option (List String) → List (String × List (Option Json))
  | none => c.content
  | some names => names.filterMap fun name => (c.content.lookup name).map (name, ·)

/-- The content of a row in some columns, or in all. Nothing is read past the end of a column. -/
def copyRow? (c : PageColumns) (k : Nat) (projection : Option (List String)) : Option Document :=
  (c.shownColumns projection).foldlM (fun doc column => do
    match ← column.2[k]? with
    | none => return doc
    | some v => return doc.set column.1 v) .empty

/-- A row, put together from the entries of its columns. -/
def fact? (c : PageColumns) (k : Nat) : Option Fact := do
  let action ← match ← c.kinds[k]? with
    | .put => (c.copyRow? k none).map Action.put
    | .delete => some .delete
    | .erase => some .erase
  return ⟨← c.entities[k]?, ← c.validFroms[k]?, ← c.validTos[k]?, ← c.systemFroms[k]?, action⟩

/-- The fields of a row in some columns. -/
def fieldsAt (k : Nat) (columns : List (String × List (Option Json))) : List (String × Json) :=
  columns.filterMap fun column => column.2[k]?.join.map (column.1, ·)

theorem foldlM_copy {columns : List (String × List (Option Json))}
    (h : ∀ column ∈ columns, k < column.2.length) (doc : Document) :
    (columns.foldlM (fun doc column => do
      match ← column.2[k]? with
      | none => return doc
      | some v => return doc.set column.1 v) doc : Option Document) =
    some ((fieldsAt k columns).foldl (fun d f => d.set f.1 f.2) doc) := by
  induction columns generalizing doc with
  | nil => rfl
  | cons column rest ih =>
    rw [List.forall_mem_cons] at h
    obtain ⟨v, hv⟩ : ∃ v, column.2[k]? = some v := ⟨_, List.getElem?_eq_getElem h.1⟩
    rw [List.foldlM_cons, hv]
    cases v with
    | none => simpa [fieldsAt, hv] using ih h.2 doc
    | some v => simpa [fieldsAt, hv] using ih h.2 (doc.set column.1 v)

theorem mem_of_mem_shownColumns {projection : Option (List String)}
    {column : String × List (Option Json)} (h : column ∈ c.shownColumns projection) :
    column ∈ c.content := by
  cases projection with
  | none => exact h
  | some names =>
    obtain ⟨name, -, hname⟩ := List.mem_filterMap.1 h
    obtain ⟨values, hvalues, rfl⟩ := Option.map_eq_some_iff.1 hname
    obtain ⟨front, back, heq, -⟩ := List.lookup_eq_some_iff.1 hvalues
    rw [heq]
    simp

/-- The content of a row of rectangular columns. -/
theorem copyRow?_eq (h : c.IsRectangular n) (hk : k < n) (projection : Option (List String)) :
    c.copyRow? k projection = some (.ofFields (fieldsAt k (c.shownColumns projection))) := by
  obtain ⟨-, -, -, -, -, hcontent⟩ := h
  refine foldlM_copy (fun column hcolumn => ?_) .empty
  rwa [hcontent column (mem_of_mem_shownColumns hcolumn)]

theorem getElem?_fieldsOf {columns : List (String × List (Option Json))}
    (h : ∀ column ∈ columns, column.2.length = n) (hk : k < n) :
    (fieldsOf n columns)[k]? = some (fieldsAt k columns) := by
  induction columns with
  | nil => simp [fieldsOf, fieldsAt, hk]
  | cons column rest ih =>
    rw [List.forall_mem_cons] at h
    obtain ⟨v, hv⟩ : ∃ v, column.2[k]? = some v := ⟨_, List.getElem?_eq_getElem (h.1 ▸ hk)⟩
    rw [fieldsOf] at ih ⊢
    rw [List.foldr_cons, List.getElem?_zipWith, ih h.2, hv]
    cases v <;> simp [fieldsAt, hv]

/-- The rows of rectangular columns. -/
theorem fact?_eq (h : c.IsRectangular n) (hk : k < n) : c.fact? k = c.toPage.rows[k]? := by
  have hcopy := copyRow?_eq h hk none
  obtain ⟨hentities, hfroms, htos, hsystems, hkinds, hcontent⟩ := h
  have hfields := getElem?_fieldsOf hcontent hk
  have hentry {α : Type} {xs : List α} (hxs : xs.length = n) : ∃ x, xs[k]? = some x :=
    ⟨_, List.getElem?_eq_getElem (hxs ▸ hk)⟩
  obtain ⟨e, he⟩ := hentry hentities
  obtain ⟨a, ha⟩ := hentry hfroms
  obtain ⟨b, hb⟩ := hentry htos
  obtain ⟨t, ht⟩ := hentry hsystems
  obtain ⟨kind, hkind⟩ := hentry hkinds
  simp only [fact?, toPage, actions, List.zip, List.getElem?_zipWith, he, ha, hb, ht, hkind,
    hkinds, hfields, hcopy]
  cases kind <;> rfl

theorem length_fieldsOf {columns : List (String × List (Option Json))}
    (h : ∀ column ∈ columns, column.2.length = n) : (fieldsOf n columns).length = n := by
  induction columns with
  | nil => simp [fieldsOf]
  | cons column rest ih =>
    rw [List.forall_mem_cons] at h
    rw [fieldsOf] at ih ⊢
    rw [List.foldr_cons, List.length_zipWith, ih h.2, h.1, Nat.min_self]

theorem size_toPage (h : c.IsRectangular n) : c.toPage.size = n := by
  obtain ⟨hentities, hfroms, htos, hsystems, hkinds, hcontent⟩ := h
  have hfields := length_fieldsOf hcontent
  simp [Page.size, toPage, actions, hentities, hfroms, htos, hsystems, hkinds, hfields]

end PageColumns

namespace Page

/-- What any byte string is read as under any page number. Reading in place never leaves the string.
Either the string is refused as corrupt, or it is a sealed record of that number: it begins with its
length and ends with its check, and all that is between spells columns with as many entries as the
record says it has rows. Every row can be put together from them, in whatever columns. -/
theorem decode_safe (bytes : Bytes) (index : Nat) :
    (PageColumns.decodeAt? bytes index).run = some (PageColumns.decode bytes index) ∧
    ((∃ d : Defect, (Page.decode bytes index).mapError (fun d => Error.corruption d.message) =
        .error (.corruption d.message)) ∨
      ∃ c n body, PageColumns.decode bytes index = .ok c ∧ Page.decode bytes index = .ok c.toPage ∧
        c.IsRectangular n ∧ c.toPage.size = n ∧
        IsSealed bytes ∧ littleEndianValue ((bytes.drop 4).take 4) = index ∧
        littleEndianValue ((bytes.drop 8).take 4) = n ∧
        bytes = frame body ∧ SpellsBody index n c body ∧
        ∀ k < n, (∃ f, c.fact? k = some f ∧ c.toPage.rows[k]? = some f) ∧
          ∀ projection, ∃ doc, c.copyRow? k projection = some doc) := by
  refine ⟨PageColumns.decodeAt?_eq bytes index, ?_⟩
  cases hdecode : PageColumns.decode bytes index with
  | error d => exact .inl ⟨d, by rw [Page.decode, hdecode]; rfl⟩
  | ok c =>
    right
    obtain ⟨n, body, rfl, hfits, hspelled⟩ := PageColumns.decode_eq_ok_iff.1 hdecode
    have hrect := hspelled.isRectangular
    have hrows := hspelled.le_length
    have hbody (k : Nat) (hk : k + 4 ≤ body.length) :
        ((frame body).drop (4 + k)).take 4 = (body.drop k).take 4 := by
      simp only [frame, List.append_assoc, ← List.drop_drop, List.drop_left' (length_count _)]
      rw [List.drop_append_of_le_length (by omega), List.take_append_of_le_length]
      rw [List.length_drop]
      omega
    refine ⟨c, n, body, rfl, by rw [Page.decode, hdecode]; rfl, hrect, c.size_toPage hrect,
      isSealed_frame hfits, ?_, ?_, rfl, hspelled, fun k hk => ⟨?_, fun projection => ?_⟩⟩
    · rw [hbody 0 (by omega), List.drop_zero, hspelled.index_eq]
    · rw [hbody 4 (by omega), hspelled.rows_eq]
    · have hlt : k < c.toPage.rows.length := by rwa [← Page.size, c.size_toPage hrect]
      exact ⟨_, by rw [PageColumns.fact?_eq hrect hk, List.getElem?_eq_getElem hlt],
        List.getElem?_eq_getElem hlt⟩
    · exact ⟨_, PageColumns.copyRow?_eq hrect hk projection⟩

end Page

end Bitemporal
