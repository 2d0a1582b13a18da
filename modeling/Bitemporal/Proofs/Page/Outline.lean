import Mathlib
import Bitemporal.Proofs.Page.Positions

/-!
# What a record keeps

The ids, times and kinds of a page have one spelling each, so a page that is read from the record of
another has the same ones in the same places. Only documents depend on how JSON text is read: what
is read of a page is ordered exactly if the page was.

## Main definitions

* `Fact.outline`: a fact without its document.

## Main statements

* `Record.keys_inj`: a body tells its ids, times and kinds.
* `Page.outline_of_decode`: what is read of the record of a page.
-/

namespace Bitemporal

/-- A fact without its document. -/
def Fact.outline (f : Fact) : EntityId × Instant × Instant × Instant × FactKind :=
  (f.entity, f.validFrom, f.validTo, f.systemFrom, f.kind)

/-- Documents do not show in the order of facts. -/
theorem Fact.isOrdered_of_outline {rows rows' : List Fact}
    (h : rows.map outline = rows'.map outline) (hrows : IsOrdered rows) : IsOrdered rows' := by
  let comesBefore (a b : EntityId × Instant × Instant × Instant × FactKind) : Prop :=
    (a.1 < b.1 || (a.1 = b.1 && a.2.2.2.1 ≥ b.2.2.2.1)) = true
  have hmap (facts : List Fact) :
      IsOrdered facts ↔ (facts.map outline).Pairwise comesBefore := by
    rw [List.pairwise_map]
    rfl
  rwa [hmap, ← h, ← hmap]

namespace Record

variable {α : Type} {m : Reading α} {P : α → Bytes → Prop} {a b : α}
  {front front' rest rest' body : Bytes} {index n k : Nat} {c c' : PageColumns}

/-- The bytes tell what their front part spells, and where it ends. -/
theorem Accepts.unique (h : Accepts m P) (ha : P a front) (hb : P b front')
    (heq : front ++ rest = front' ++ rest') : a = b ∧ rest = rest' := by
  have hread := (h (front ++ rest) a rest).2 ⟨front, rfl, ha⟩
  have hread' := (h (front ++ rest) b rest').2 ⟨front', heq, hb⟩
  exact Prod.mk.inj (Except.ok.inj (hread.symm.trans hread'))

/-- A body tells its ids, times and kinds, whatever its content is. -/
theorem keys_inj (h : c.IsRectangular n) (h' : c'.IsRectangular k) (hindex : index < 2 ^ 32)
    (hn : n < 2 ^ 32) (hk : k < 2 ^ 32) (heq : keys index n c ++ rest = keys index k c' ++ rest') :
    n = k ∧ c.entities = c'.entities ∧ c.validFroms = c'.validFroms ∧
      c.validTos = c'.validTos ∧ c.systemFroms = c'.systemFroms ∧ c.kinds = c'.kinds := by
  obtain ⟨hentities, hfroms, htos, hsystems, hkinds, -⟩ := h
  obtain ⟨hentities', hfroms', htos', hsystems', hkinds', -⟩ := h'
  simp only [keys, List.append_assoc] at heq
  obtain ⟨-, heq⟩ := Accepts.takeCount.unique ⟨hindex, rfl⟩ ⟨hindex, rfl⟩ heq
  obtain ⟨rfl, hrest⟩ := Accepts.takeCount.unique ⟨hn, rfl⟩ ⟨hk, rfl⟩ heq
  have hids := Accepts.takeMany_of_eq Accepts.takeEntity n
  have hinstants := Accepts.takeMany_of_eq Accepts.takeInstant n
  obtain ⟨hentities, hrest⟩ := hids.unique ⟨hentities, rfl⟩ ⟨hentities', rfl⟩ hrest
  obtain ⟨hfroms, hrest⟩ := hinstants.unique ⟨hfroms, rfl⟩ ⟨hfroms', rfl⟩ hrest
  obtain ⟨htos, hrest⟩ := hinstants.unique ⟨htos, rfl⟩ ⟨htos', rfl⟩ hrest
  obtain ⟨hsystems, hrest⟩ := hinstants.unique ⟨hsystems, rfl⟩ ⟨hsystems', rfl⟩ hrest
  have htags := (List.append_inj hrest (by simp [hkinds, hkinds'])).1
  have hread := Accepts.mapM_kindOf_eq_ok_iff.2 (rfl : c.kinds.map FactKind.tag = _)
  rw [htags, Accepts.mapM_kindOf_eq_ok_iff.2 rfl] at hread
  exact ⟨rfl, hentities, hfroms, htos, hsystems, (Except.ok.inj hread).symm⟩

theorem frame_inj (h : frame front = frame body) : front = body := by
  have hbody (bytes : Bytes) :
      ((frame bytes).take ((frame bytes).length - 4)).drop 4 = bytes := by
    rw [take_frame, List.drop_left' (length_count _)]
  rw [← hbody front, h, hbody]

theorem body_eq_keys (index : Nat) (p : Page) : Record.body index (.ofPage p) =
    keys index p.rows.length (.ofPage p) ++ (count (PageColumns.ofPage p).content.length ++
      (PageColumns.ofPage p).content.flatMap contentColumn) := by
  simp [Record.body, keys, PageColumns.ofPage]

end Record

open Record

/-- A row of rectangular columns without its document. -/
theorem PageColumns.outline_getElem? {c : PageColumns} {n k : Nat} (h : c.IsRectangular n)
    (hk : k < n) : c.toPage.rows[k]?.map Fact.outline = (do
      return (← c.entities[k]?, ← c.validFroms[k]?, ← c.validTos[k]?, ← c.systemFroms[k]?,
        ← c.kinds[k]?)) := by
  have hcopy := c.copyRow?_eq h hk none
  rw [← fact?_eq h hk]
  obtain ⟨hentities, hfroms, htos, hsystems, hkinds, -⟩ := h
  have hentry {α : Type} {xs : List α} (hxs : xs.length = n) : ∃ x, xs[k]? = some x :=
    ⟨_, List.getElem?_eq_getElem (hxs ▸ hk)⟩
  obtain ⟨e, he⟩ := hentry hentities
  obtain ⟨a, ha⟩ := hentry hfroms
  obtain ⟨b, hb⟩ := hentry htos
  obtain ⟨t, ht⟩ := hentry hsystems
  obtain ⟨kind, hkind⟩ := hentry hkinds
  simp only [fact?, he, ha, hb, ht, hkind, hcopy]
  cases kind <;> rfl

namespace Page

variable {index : Nat} {p page : Page}

/-- What is read of the record of a page has the ids, times and kinds of the page, row by row. -/
theorem outline_of_decode (h : Page.decode (p.encode index) index = .ok page) :
    page.rows.map Fact.outline = p.rows.map Fact.outline := by
  obtain ⟨c, hc, rfl⟩ : ∃ c, PageColumns.decode (p.encode index) index = .ok c ∧
      c.toPage = page := by
    rw [Page.decode] at h
    cases hdecode : PageColumns.decode (p.encode index) index with
    | error d => simp [hdecode, Except.map] at h
    | ok c => exact ⟨c, rfl, Except.ok.inj (hdecode ▸ h)⟩
  obtain ⟨n, body, hframe, hfits, hspelled⟩ := PageColumns.decode_eq_ok_iff.1 hc
  obtain ⟨columns, parts, -, -, -, hbody⟩ := hspelled.content
  have hrect := isRectangular_ofPage p
  have hrows : p.rows.length < 2 ^ 32 := by
    have hlength := le_length_body hrect index
    rw [Page.encode, length_frame] at hfits
    rw [rowLength] at hlength
    omega
  have heq := body_eq_keys index p
  rw [frame_inj hframe, hbody, List.append_assoc] at heq
  obtain ⟨rfl, hentities, hfroms, htos, hsystems, hkinds⟩ :=
    keys_inj hspelled.isRectangular hrect hspelled.index_lt hspelled.rows_lt hrows heq
  have hpage : (PageColumns.ofPage p).toPage.rows = p.rows := by rw [PageColumns.toPage_ofPage]
  have hsize : c.toPage.rows.length = p.rows.length := c.size_toPage hspelled.isRectangular
  apply List.ext_getElem?
  intro k
  rw [List.getElem?_map, List.getElem?_map]
  by_cases hk : k < p.rows.length
  · rw [← hpage, PageColumns.outline_getElem? hspelled.isRectangular hk,
      PageColumns.outline_getElem? hrect hk, hentities, hfroms, htos, hsystems, hkinds]
  · rw [List.getElem?_eq_none (by omega), List.getElem?_eq_none (by omega)]

end Page

end Bitemporal
