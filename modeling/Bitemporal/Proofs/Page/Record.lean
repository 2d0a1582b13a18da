import Mathlib
import Bitemporal.Proofs.Page.Columns
import Bitemporal.Proofs.Text.Bytes

/-!
# Page records

A record is read as it was written, as long as its length fits four bytes and the text of its JSON
values is read as the values.

## Main definitions

* `Record.Reads`: reading takes some bytes and gives a value, whatever follows.

## Main statements

* `Record.Reads.bind`, `Record.Reads.takeMany`: reading one thing after the other.
* `Page.length_encode`: the length of the record of a page.
* `Page.decode_encode`: the record of a page gives the page.
-/

namespace Bitemporal

namespace Record

variable {α β : Type} {m : Reading α} {a : α} {bytes : Bytes} {n k : Nat}

/-! ## Numbers -/

theorem length_littleEndian (k n : Nat) : (littleEndian k n).length = k := by simp [littleEndian]

theorem littleEndian_succ (k n : Nat) :
    littleEndian (k + 1) n = UInt8.ofNat n :: littleEndian k (n / 256) := by
  simp [littleEndian, List.range_succ_eq_map, Nat.pow_succ', Nat.div_div_eq_div_mul]

theorem littleEndianValue_littleEndian (k n : Nat) :
    littleEndianValue (littleEndian k n) = n % 256 ^ k := by
  induction k generalizing n with
  | zero => simp [littleEndian, littleEndianValue, Nat.mod_one]
  | succ k ih =>
    rw [littleEndian_succ, littleEndianValue, ih, UInt8.toNat_ofNat',
      show 256 ^ (k + 1) = 256 * 256 ^ k from Nat.pow_succ', @Nat.mod_mul 256 (256 ^ k) n]

theorem littleEndianValue_lt (bytes : Bytes) : littleEndianValue bytes < 256 ^ bytes.length := by
  induction bytes with
  | nil => simp [littleEndianValue]
  | cons b rest ih =>
    have hb := b.toNat_lt
    rw [littleEndianValue, List.length_cons, Nat.pow_succ']
    omega

theorem bigEndianValue_reverse (bytes : Bytes) :
    EntityId.bigEndianValue bytes.reverse = littleEndianValue bytes := by
  induction bytes with
  | nil => rfl
  | cons b rest ih =>
    rw [EntityId.bigEndianValue] at ih ⊢
    rw [List.reverse_cons, List.foldl_append, ih, littleEndianValue]
    simp [Nat.add_comm]

theorem toBytes_eq (e : EntityId) : e.toBytes = (littleEndian 16 e.bits.toNat).reverse := by
  rw [EntityId.toBytes, littleEndian, ← List.map_reverse]
  rfl

theorem length_flatMap_eq {enc : α → Bytes} {xs : List α} (h : ∀ x ∈ xs, (enc x).length = k) :
    (xs.flatMap enc).length = k * xs.length := by
  induction xs with
  | nil => rfl
  | cons x rest ih =>
    rw [List.forall_mem_cons] at h
    rw [List.flatMap_cons, List.length_append, h.1, ih h.2, List.length_cons, Nat.mul_succ,
      Nat.add_comm]

theorem length_toBytes (e : EntityId) : e.toBytes.length = 16 := by
  rw [toBytes_eq, List.length_reverse, length_littleEndian]

/-- A body takes the bytes of its rows and those of its content columns. -/
theorem length_body {c : PageColumns} (h : c.IsRectangular n) (index : Nat) :
    (body index c).length =
      12 + rowLength * n + (c.content.flatMap contentColumn).length := by
  obtain ⟨hentities, hfroms, htos, hsystems, hkinds, -⟩ := h
  have hinstants (ts : List Instant) : (ts.flatMap instant).length = 8 * ts.length :=
    length_flatMap_eq fun t _ => length_littleEndian 8 _
  have hids : (c.entities.flatMap EntityId.toBytes).length = 16 * c.entities.length :=
    length_flatMap_eq fun e _ => length_toBytes e
  simp only [body, List.length_append, List.length_map, hids, hinstants, count, rowLength,
    length_littleEndian, hentities, hfroms, htos, hsystems, hkinds]
  omega

/-- A row takes its bytes, and a content column its name. -/
theorem le_length_body {c : PageColumns} (h : c.IsRectangular n) (index : Nat) :
    12 + rowLength * n + 4 * c.content.length ≤ (body index c).length := by
  have hcontent : 4 * c.content.length ≤ (c.content.flatMap contentColumn).length := by
    induction c.content with
    | nil => rfl
    | cons column rest ih =>
      simp only [List.flatMap_cons, List.length_append, contentColumn, counted, count,
        length_littleEndian, List.length_cons]
      omega
  rw [length_body h]
  omega

theorem length_le_flatMap (enc : α → Bytes) {xs : List α} {x : α} (hx : x ∈ xs) :
    (enc x).length ≤ (xs.flatMap enc).length := by
  rw [List.flatMap_def]
  exact (List.sublist_flatten_of_mem (List.mem_map_of_mem hx)).length_le

/-! ## Reading -/

/-- Reading takes these bytes and gives a value, whatever follows. -/
def Reads (m : Reading α) (bytes : Bytes) (a : α) : Prop :=
  ∀ rest, m (bytes ++ rest) = .ok (a, rest)

namespace Reads

protected theorem pure (a : α) : Reads (pure a) [] a := fun _ => rfl

protected theorem bind {f : α → Reading β} {more : Bytes} {b : β} (h : Reads m bytes a)
    (hf : Reads (f a) more b) : Reads (m >>= f) (bytes ++ more) b := by
  intro rest
  rw [List.append_assoc]
  show (m (bytes ++ (more ++ rest)) >>= fun x => f x.1 x.2) = _
  rw [h]
  exact hf rest

/-- The last step takes nothing more. -/
theorem last {f : α → Reading β} {b : β} (h : Reads m bytes a) (hf : Reads (f a) [] b) :
    Reads (m >>= f) bytes b := by
  simpa using h.bind hf

/-- A step that takes nothing. -/
theorem silent {f : α → Reading β} {b : β} (h : Reads m [] a) (hf : Reads (f a) bytes b) :
    Reads (m >>= f) bytes b := h.bind hf

protected theorem map {b : β} {f : α → β} (h : Reads m bytes a) (hb : f a = b) :
    Reads (do return f (← m)) bytes b := h.last (hb ▸ .pure (f a))

/-- As many items as there are, each from its own bytes. -/
theorem takeMany {item : Reading α} {xs : List α} {enc : α → Bytes}
    (h : ∀ x ∈ xs, Reads item (enc x) x) (hlength : xs.length = n) :
    Reads (takeMany item n) (xs.flatMap enc) xs := by
  subst hlength
  induction xs with
  | nil => exact .pure []
  | cons x rest ih =>
    rw [List.forall_mem_cons] at h
    rw [Record.takeMany, List.length_cons, List.replicate_succ, List.mapM_cons, List.flatMap_cons]
    exact h.1.bind ((ih h.2).map rfl)

theorem take (h : bytes.length = n) : Reads (take n) bytes bytes := by
  intro rest
  simp [Record.take, ← h]

theorem takeCount (h : n < 2 ^ 32) : Reads takeCount (count n) n := by
  refine (take (length_littleEndian 4 n)).map ?_
  rw [littleEndianValue_littleEndian]
  exact Nat.mod_eq_of_lt h

theorem takeCounted (h : bytes.length < 2 ^ 32) : Reads takeCounted (counted bytes) bytes := by
  refine (takeCount h).bind ?_
  intro rest
  show (if ((bytes ++ rest).take bytes.length).length < bytes.length then
    fail (.overrun bytes.length (bytes ++ rest).length) else Record.take bytes.length) _ = _
  rw [if_neg (by simp)]
  exact take rfl rest

theorem takeEntity (e : EntityId) : Reads takeEntity e.toBytes e := by
  refine (take ?_).map ?_
  · exact length_toBytes e
  · rw [toBytes_eq, bigEndianValue_reverse, littleEndianValue_littleEndian]
    have hlt : e.bits.toNat < 256 ^ 16 := e.bits.isLt
    rw [Nat.mod_eq_of_lt hlt, EntityId.ofNat, BitVec.ofNat_toNat, BitVec.setWidth_eq]

theorem takeInstant (t : Instant) : Reads takeInstant (instant t) t := by
  refine (take (length_littleEndian 8 _)).map ?_
  have hlt : t.toUInt64.toNat < 256 ^ 8 := t.toUInt64.toNat_lt
  rw [instantValue, littleEndianValue_littleEndian, Nat.mod_eq_of_lt hlt, UInt64.ofNat_toNat,
    Int64.toInt64_toUInt64]

theorem kinds (kinds : List FactKind) :
    Reads (StateT.lift ((kinds.map FactKind.tag).mapM kindOf)) [] kinds := by
  have hkinds : (kinds.map FactKind.tag).mapM kindOf = .ok kinds := by
    induction kinds with
    | nil => rfl
    | cons kind rest ih =>
      have hkind : kindOf kind.tag = .ok kind := by cases kind <;> rfl
      rw [List.map_cons, List.mapM_cons, hkind, ih]
      rfl
  intro rest
  rw [hkinds]
  rfl

theorem takeEntry (column : String) {v : Option Json}
    (hreads : ∀ x, v = some x → Json.ofString? x.compact = some x)
    (hfits : (entry v).length < 2 ^ 32) : Reads (takeEntry column) (entry v) v := by
  cases v with
  | none => exact (@take [0] 1 rfl).last (.pure none)
  | some x =>
    have hlength : (Bytes.ofString x.compact).length < 2 ^ 32 := by
      simp only [entry, counted, List.length_cons, List.length_append] at hfits
      omega
    refine (@take [1] 1 rfl).bind ((takeCounted hlength).last fun rest => ?_)
    rw [Bytes.text?_ofString, Option.bind_some, hreads x rfl]
    rfl

theorem takeColumn {column : String × List (Option Json)}
    (hreads : ∀ x, some x ∈ column.2 → Json.ofString? x.compact = some x)
    (hfits : (contentColumn column).length < 2 ^ 32) :
    Reads (takeColumn column.2.length) (contentColumn column) column := by
  rw [contentColumn, List.length_append] at hfits
  have hname : (Bytes.ofString column.1).length < 2 ^ 32 := by
    rw [counted, List.length_append] at hfits
    omega
  have hentries : Reads (Record.takeMany (Record.takeEntry column.1) column.2.length)
      (column.2.flatMap entry) column.2 := by
    refine takeMany (fun v hv => takeEntry column.1 (fun x hx => hreads x (hx ▸ hv)) ?_) rfl
    have := length_le_flatMap entry hv
    omega
  refine (takeCounted hname).bind ?_
  rw [Bytes.text?_ofString]
  exact hentries.map rfl

/-- The columns of a body are read as they were written. -/
theorem takeColumns {c : PageColumns} {index sealedLength : Nat} (hrect : c.IsRectangular n)
    (hsorted : c.content.Pairwise (·.1 < ·.1))
    (hreads : ∀ column ∈ c.content, ∀ x, some x ∈ column.2 → Json.ofString? x.compact = some x)
    (hindex : index < 2 ^ 32) (hfits : (body index c).length < 2 ^ 32)
    (hrows : n ≤ sealedLength / rowLength) :
    Reads (takeColumns index sealedLength) (body index c) c := by
  obtain ⟨hentities, hfroms, htos, hsystems, hkinds, hcontent⟩ := hrect
  have hcolumns : Reads (Record.takeMany (Record.takeColumn n) c.content.length)
      (c.content.flatMap contentColumn) c.content := by
    refine takeMany (fun column hcolumn => ?_) rfl
    have hlength := length_le_flatMap contentColumn hcolumn
    rw [body, List.length_append] at hfits
    rw [← hcontent column hcolumn]
    exact takeColumn (hreads column hcolumn) (by omega)
  have hlength := le_length_body ⟨hentities, hfroms, htos, hsystems, hkinds, hcontent⟩ index
  rw [rowLength] at hlength
  have hcount : c.content.length < 2 ^ 32 := by omega
  have hn : n < 2 ^ 32 := by omega
  simp only [body, List.append_assoc, hentities]
  refine (takeCount hindex).bind ?_
  rw [if_neg (by simp)]
  refine (takeCount hn).bind ?_
  rw [if_neg (by omega)]
  refine (takeMany (fun e _ => takeEntity e) hentities).bind ?_
  refine (takeMany (fun t _ => takeInstant t) hfroms).bind ?_
  refine (takeMany (fun t _ => takeInstant t) htos).bind ?_
  refine (takeMany (fun t _ => takeInstant t) hsystems).bind ?_
  refine (take ((List.length_map _).trans hkinds)).bind ?_
  refine (kinds c.kinds).silent ?_
  refine (takeCount hcount).bind (hcolumns.map ?_)
  rw [Json.sortFields_eq_self hsorted]

end Reads

/-- The number of a page whose columns are read fits four bytes. -/
theorem lt_of_takeColumns {index sealedLength : Nat} {result : PageColumns × Bytes}
    (h : takeColumns index sealedLength bytes = .ok result) : index < 2 ^ 32 := by
  by_cases hfront : (bytes.take 4).length = 4
  · have hfound : takeCount bytes = .ok (littleEndianValue (bytes.take 4), bytes.drop 4) := by
      simp only [takeCount, bind, StateT.bind, Record.take, hfront, Except.bind]
      rfl
    have hlt := littleEndianValue_lt (bytes.take 4)
    rw [hfront] at hlt
    by_contra hindex
    have hne : littleEndianValue (bytes.take 4) ≠ index := by omega
    simp only [takeColumns, bind, StateT.bind, hfound, Except.bind, if_pos hne] at h
    cases h
  · have hfound : takeCount bytes = .error .truncated := by
      simp only [takeCount, bind, StateT.bind, Record.take, hfront, Except.bind]
      rfl
    simp only [takeColumns, bind, StateT.bind, hfound, Except.bind] at h
    cases h

/-! ## The frame of a record -/

theorem length_count (n : Nat) : (count n).length = 4 := length_littleEndian 4 n

theorem length_frame (bytes : Bytes) : (frame bytes).length = 4 + bytes.length + 4 := by
  simp only [frame, checkBytes, count, List.length_append, length_littleEndian]

/-- A record begins with its length, if that fits four bytes. -/
theorem stored_frame (h : (frame bytes).length < 2 ^ 32) :
    littleEndianValue ((frame bytes).take 4) = (frame bytes).length := by
  rw [length_frame] at h ⊢
  rw [frame, List.append_assoc, List.take_left' (length_count _), count,
    littleEndianValue_littleEndian]
  exact Nat.mod_eq_of_lt h

theorem length_unsealed (bytes : Bytes) :
    (count (4 + bytes.length + 4) ++ bytes).length = (frame bytes).length - 4 := by
  rw [List.length_append, length_count, length_frame, Nat.add_sub_cancel]

theorem take_frame (bytes : Bytes) : (frame bytes).take ((frame bytes).length - 4) =
    count (4 + bytes.length + 4) ++ bytes := List.take_left' (length_unsealed bytes)

/-- A record ends with the check of all that comes before it. -/
theorem checksum_frame (bytes : Bytes) :
    littleEndianValue ((frame bytes).drop ((frame bytes).length - 4)) =
      (Crc32.checksum ((frame bytes).take ((frame bytes).length - 4))).toNat := by
  have hdrop : (frame bytes).drop ((frame bytes).length - 4) =
      checkBytes (count (4 + bytes.length + 4) ++ bytes) := List.drop_left' (length_unsealed bytes)
  rw [hdrop, take_frame, checkBytes, count, littleEndianValue_littleEndian]
  exact Nat.mod_eq_of_lt (BitVec.isLt _)

end Record

open Record

/-- What is read of a record is read of its body, if its length fits four bytes. -/
theorem PageColumns.decode_frame_eq {bytes : Bytes} (hlong : minLength ≤ (frame bytes).length)
    (hfits : (frame bytes).length < 2 ^ 32) (index : Nat) :
    PageColumns.decode (frame bytes) index =
      (takeColumns index (4 + bytes.length) bytes).bind fun result =>
        if result.2.isEmpty then .ok result.1 else .error .trailing := by
  have hrest : ((frame bytes).take ((frame bytes).length - 4)).drop 4 = bytes := by
    rw [take_frame, List.drop_left' (length_count _)]
  have hsealed : ((frame bytes).take ((frame bytes).length - 4)).length = 4 + bytes.length := by
    rw [take_frame, length_unsealed, length_frame, Nat.add_sub_cancel]
  rw [PageColumns.decode, if_neg (not_lt.2 hlong)]
  simp only [stored_frame hfits, checksum_frame, hrest, hsealed, ne_eq, not_true, if_false]
  rfl

/-- The columns of a record are read as they were written, if its length fits four bytes. -/
theorem PageColumns.decode_frame {c : PageColumns} {index n : Nat} (hrect : c.IsRectangular n)
    (hsorted : c.content.Pairwise (·.1 < ·.1))
    (hreads : ∀ column ∈ c.content, ∀ x, some x ∈ column.2 → Json.ofString? x.compact = some x)
    (hindex : index < 2 ^ 32) (hfits : (frame (body index c)).length < 2 ^ 32) :
    PageColumns.decode (frame (body index c)) index = .ok c := by
  have hlength := length_frame (body index c)
  have hbody := le_length_body hrect index
  have hread := Reads.takeColumns hrect hsorted hreads hindex (by omega)
    (show n ≤ (4 + (body index c).length) / rowLength by rw [rowLength] at hbody ⊢; omega) []
  rw [List.append_nil] at hread
  rw [decode_frame_eq (by rw [minLength]; omega) hfits, hread]
  rfl

/-- The length and the number of a record that is read fit four bytes. -/
theorem PageColumns.lt_of_decode {c : PageColumns} {bytes : Bytes} {index : Nat}
    (h : PageColumns.decode bytes index = .ok c) : bytes.length < 2 ^ 32 ∧ index < 2 ^ 32 := by
  simp only [PageColumns.decode, bind, Except.bind, StateT.run] at h
  split_ifs at h with hshort hlength
  rw [not_not] at hlength
  split at h
  · cases h
  · rename_i hread
    refine ⟨?_, lt_of_takeColumns hread⟩
    have hlt := littleEndianValue_lt (bytes.take 4)
    have hfront : (bytes.take 4).length ≤ 4 := by simp
    have hpow : 256 ^ (bytes.take 4).length ≤ 256 ^ 4 := Nat.pow_le_pow_right (by omega) hfront
    omega

namespace Page

variable {pg : Page}

theorem isRectangular_ofPage (pg : Page) :
    (PageColumns.ofPage pg).IsRectangular pg.rows.length := by
  simp [PageColumns.IsRectangular, PageColumns.ofPage, Page.column]

/-- The length of the record of a page. -/
theorem length_encode (pg : Page) (index : Nat) : (pg.encode index).length =
    minLength + rowLength * pg.rows.length +
      ((PageColumns.ofPage pg).content.flatMap contentColumn).length := by
  rw [encode, length_frame, length_body (isRectangular_ofPage pg), minLength]
  omega

theorem lt_of_decode {bytes : Bytes} {index : Nat} (h : Page.decode bytes index = .ok pg) :
    bytes.length < 2 ^ 32 ∧ index < 2 ^ 32 := by
  rw [Page.decode] at h
  cases hcolumns : PageColumns.decode bytes index with
  | error e => simp [hcolumns, Except.map] at h
  | ok c => exact PageColumns.lt_of_decode hcolumns

/-- The record of a page gives its columns, if its length and its number fit four bytes and the text
of every value is read as the value. -/
theorem columns_encode {index : Nat} (hindex : index < 2 ^ 32)
    (hfits : (pg.encode index).length < 2 ^ 32)
    (hreads : ∀ f ∈ pg.rows, ∀ c ∈ f.doc.fields, Json.ofString? c.2.compact = some c.2) :
    PageColumns.decode (pg.encode index) index = .ok (.ofPage pg) := by
  refine PageColumns.decode_frame (isRectangular_ofPage pg) ?_ ?_ hindex hfits
  · exact List.pairwise_map.2 pg.pairwise_columnNames
  · intro column hcolumn x hx
    obtain ⟨name, -, rfl⟩ := List.mem_map.1 hcolumn
    obtain ⟨f, hf, hget⟩ := List.mem_map.1 hx
    exact hreads f hf (name, x) (Document.get?_eq_some_iff.1 hget)

/-- The record of a page gives the page. -/
theorem decode_encode {index : Nat} (hindex : index < 2 ^ 32)
    (hfits : (pg.encode index).length < 2 ^ 32)
    (hreads : ∀ f ∈ pg.rows, ∀ c ∈ f.doc.fields, Json.ofString? c.2.compact = some c.2) :
    Page.decode (pg.encode index) index = .ok pg := by
  rw [Page.decode, columns_encode hindex hfits hreads]
  exact congrArg Except.ok (PageColumns.toPage_ofPage pg)

end Page

end Bitemporal
