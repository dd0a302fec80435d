import Mathlib.Data.Finmap
import Mathlib.Data.List.Sort
import Mathlib.Algebra.BigOperators.Group.Multiset.Basic
import Mathlib.Algebra.Order.BigOperators.Group.Multiset
import Mathlib.Tactic

/-!
# Tables

A table is a finite map from keys to rows. Beside the single-row operations of `Finmap` it has two
bulk ones: `eraseAll` deletes the rows at a list of keys and `insertAll` writes a list of rows, a
later one replacing an earlier one at the same key. Both are described by their lookups, and
`total f` adds a number over all rows: writing a row adds at most its number (`total_insert_le`),
deleting a row takes away exactly its number (`total_erase`), and a smaller table has a smaller
total (`total_mono`).

The order in which a query without an `ORDER BY` returns its rows is not a property of the table; it
is a parameter, `ScanOrder`, and `sortedScan` is one such order.
-/

set_option autoImplicit false

namespace Toolkit

/-- A finite map from keys to rows. -/
abbrev Table (κ α : Type) := Finmap fun _ : κ => α

variable {κ α β : Type} [DecidableEq κ]

namespace Table

/-- Delete the rows at the keys `ks`. -/
def eraseAll (ks : List κ) (t : Table κ α) : Table κ α :=
  ks.foldl (fun t k => t.erase k) t

/-- Write the rows `kvs`, later ones over earlier ones. -/
def insertAll (kvs : List (κ × α)) (t : Table κ α) : Table κ α :=
  kvs.foldl (fun t kv => t.insert kv.1 kv.2) t

/-- Change the row at `k`, if there is one. -/
def modify (k : κ) (f : α → α) (t : Table κ α) : Table κ α :=
  match t.lookup k with
  | none => t
  | some v => t.insert k (f v)

/-- Change the rows at the keys of `kvs`, one after the other. -/
def amendAll (f : β → α → α) (kvs : List (κ × β)) (t : Table κ α) : Table κ α :=
  kvs.foldl (fun t kv => t.modify kv.1 (f kv.2)) t

/-- Write every row of `s` over `t`. -/
def overwrite (s t : Table κ α) : Table κ α := s ∪ t

/-- Keep the rows that `p` accepts. -/
def keepIf (p : κ → α → Bool) (t : Table κ α) : Table κ α :=
  ⟨t.entries.filter fun e => p e.1 e.2, by
    have hle := Multiset.map_le_map (f := Sigma.fst)
      (Multiset.filter_le (fun e : Sigma fun _ : κ => α => p e.1 e.2) t.entries)
    exact Multiset.nodup_keys.mp (Multiset.nodup_of_le hle (Multiset.nodup_keys.mpr t.nodupKeys))⟩

omit [DecidableEq κ] in
theorem nodupKeys_mapRows (f : κ → α → β) (t : Table κ α) :
    (t.entries.map fun e => (⟨e.1, f e.1 e.2⟩ : Sigma fun _ : κ => β)).NodupKeys := by
  refine Multiset.nodup_keys.mp ?_
  have hkeys : (t.entries.map fun e => (⟨e.1, f e.1 e.2⟩ : Sigma fun _ : κ => β)).keys =
      t.entries.keys := by
    rw [Multiset.keys, Multiset.keys, Multiset.map_map]
    rfl
  rw [hkeys]
  exact Multiset.nodup_keys.mpr t.nodupKeys

/-- Change every row. -/
def mapRows (f : κ → α → β) (t : Table κ α) : Table κ β :=
  ⟨t.entries.map fun e => ⟨e.1, f e.1 e.2⟩, nodupKeys_mapRows f t⟩

/-- Every row of `s` is a row of `t`. -/
def Sub (s t : Table κ α) : Prop := ∀ k v, s.lookup k = some v → t.lookup k = some v

/-! ## Lookups -/

theorem lookup_insert_if (k k' : κ) (v : α) (t : Table κ α) :
    (t.insert k v).lookup k' = if k' = k then some v else t.lookup k' := by
  by_cases h : k' = k
  · rw [h, Finmap.lookup_insert, if_pos rfl]
  · rw [Finmap.lookup_insert_of_ne t h, if_neg h]

theorem lookup_erase_if (k k' : κ) (t : Table κ α) :
    (t.erase k).lookup k' = if k' = k then none else t.lookup k' := by
  by_cases h : k' = k
  · rw [h, Finmap.lookup_erase, if_pos rfl]
  · rw [Finmap.lookup_erase_ne h, if_neg h]

theorem lookup_eraseAll (ks : List κ) (t : Table κ α) (k : κ) :
    (eraseAll ks t).lookup k = if k ∈ ks then none else t.lookup k := by
  induction ks generalizing t with
  | nil => simp [eraseAll]
  | cons k₀ ks ih =>
    have hstep : eraseAll (k₀ :: ks) t = eraseAll ks (t.erase k₀) := rfl
    rw [hstep, ih, lookup_erase_if]
    by_cases hk : k = k₀
    · simp [hk]
    · simp [hk]

theorem lookup_insertAll_of_notMem {kvs : List (κ × α)} {t : Table κ α} {k : κ}
    (h : k ∉ kvs.map Prod.fst) : (insertAll kvs t).lookup k = t.lookup k := by
  induction kvs generalizing t with
  | nil => rfl
  | cons kv kvs ih =>
    simp only [List.map_cons, List.mem_cons, not_or] at h
    have hstep : insertAll (kv :: kvs) t = insertAll kvs (t.insert kv.1 kv.2) := rfl
    rw [hstep, ih h.2, lookup_insert_if, if_neg h.1]

/-- After a bulk write with distinct keys, each written key holds the row written for it. -/
theorem lookup_insertAll_of_mem {kvs : List (κ × α)} {t : Table κ α} {k : κ} {v : α}
    (hkeys : (kvs.map Prod.fst).Nodup) (h : (k, v) ∈ kvs) :
    (insertAll kvs t).lookup k = some v := by
  induction kvs generalizing t with
  | nil => cases h
  | cons kv kvs ih =>
    rw [List.map_cons, List.nodup_cons] at hkeys
    have hstep : insertAll (kv :: kvs) t = insertAll kvs (t.insert kv.1 kv.2) := rfl
    rcases List.mem_cons.mp h with rfl | htail
    · rw [hstep, lookup_insertAll_of_notMem hkeys.1, Finmap.lookup_insert]
    · rw [hstep]
      exact ih hkeys.2 htail

/-- A row found after a bulk write was written or was there before. -/
theorem lookup_insertAll_cases {kvs : List (κ × α)} {t : Table κ α} {k : κ} {v : α}
    (h : (insertAll kvs t).lookup k = some v) :
    (k, v) ∈ kvs ∨ (k ∉ kvs.map Prod.fst ∧ t.lookup k = some v) := by
  induction kvs generalizing t with
  | nil => exact .inr ⟨List.not_mem_nil, h⟩
  | cons kv kvs ih =>
    have hstep : insertAll (kv :: kvs) t = insertAll kvs (t.insert kv.1 kv.2) := rfl
    rw [hstep] at h
    rcases ih h with hmem | ⟨hnot, hlook⟩
    · exact .inl (List.mem_cons_of_mem kv hmem)
    · rw [lookup_insert_if] at hlook
      by_cases hk : k = kv.1
      · rw [if_pos hk] at hlook
        have hv : kv.2 = v := Option.some.inj hlook
        subst hk
        subst hv
        exact .inl List.mem_cons_self
      · rw [if_neg hk] at hlook
        refine .inr ⟨?_, hlook⟩
        simp only [List.map_cons, List.mem_cons, not_or]
        exact ⟨hk, hnot⟩

/-- The rows after a bulk write with distinct keys. -/
theorem lookup_insertAll_eq_some {kvs : List (κ × α)} {t : Table κ α} {k : κ} {v : α}
    (hkeys : (kvs.map Prod.fst).Nodup) : (insertAll kvs t).lookup k = some v ↔
      (k, v) ∈ kvs ∨ (k ∉ kvs.map Prod.fst ∧ t.lookup k = some v) := by
  refine ⟨lookup_insertAll_cases, ?_⟩
  rintro (hmem | ⟨hnot, hold⟩)
  · exact lookup_insertAll_of_mem hkeys hmem
  · rw [lookup_insertAll_of_notMem hnot, hold]

/-- A bulk write leaves equal rows behind where there were equal rows before. -/
theorem lookup_insertAll_congr (kvs : List (κ × α)) {s t : Table κ α} {k : κ}
    (h : s.lookup k = t.lookup k) : (insertAll kvs s).lookup k = (insertAll kvs t).lookup k := by
  induction kvs generalizing s t with
  | nil => exact h
  | cons kv kvs ih =>
    refine @ih (s.insert kv.1 kv.2) (t.insert kv.1 kv.2) ?_
    rw [lookup_insert_if, lookup_insert_if, h]

/-- After a bulk write there is a row where there was one and where one was written. -/
theorem lookup_insertAll_ne_none {kvs : List (κ × α)} {t : Table κ α} {k : κ}
    (h : t.lookup k ≠ none ∨ k ∈ kvs.map Prod.fst) : (insertAll kvs t).lookup k ≠ none := by
  induction kvs generalizing t with
  | nil => exact h.resolve_right List.not_mem_nil
  | cons kv kvs ih =>
    refine @ih (t.insert kv.1 kv.2) ?_
    rw [lookup_insert_if]
    by_cases hk : k = kv.1
    · rw [if_pos hk]
      exact .inl (Option.some_ne_none kv.2)
    · rw [if_neg hk]
      exact h.imp_right fun hmem => (List.mem_cons.mp hmem).resolve_left hk

theorem insertAll_append (kvs kvs' : List (κ × α)) (t : Table κ α) :
    insertAll (kvs ++ kvs') t = insertAll kvs' (insertAll kvs t) := List.foldl_append

/-- A bulk write of one row at several keys. -/
theorem lookup_insertAll_const (ks : List κ) (v : α) (t : Table κ α) (k : κ) :
    (insertAll (ks.map fun k' => (k', v)) t).lookup k = if k ∈ ks then some v else t.lookup k := by
  have hkeys : (ks.map fun k' => (k', v)).map Prod.fst = ks := by
    rw [List.map_map]
    exact List.map_id ks
  by_cases hk : k ∈ ks
  · rw [if_pos hk]
    cases h : (insertAll (ks.map fun k' => (k', v)) t).lookup k with
    | some w =>
      rcases lookup_insertAll_cases h with hmem | ⟨hnot, -⟩
      · obtain ⟨k', -, heq⟩ := List.mem_map.mp hmem
        rw [(Prod.mk.inj heq).2]
      · exact absurd (hkeys.symm ▸ hk) hnot
    | none => exact absurd h (lookup_insertAll_ne_none (.inr (hkeys.symm ▸ hk)))
  · rw [if_neg hk]
    exact lookup_insertAll_of_notMem (by rwa [hkeys])

/-- A bulk write of changed rows. -/
theorem lookup_insertAll_map (f : α → β) (kvs : List (κ × α)) {s : Table κ α} {t : Table κ β}
    {k : κ} (h : t.lookup k = (s.lookup k).map f) :
    (insertAll (kvs.map fun kv => (kv.1, f kv.2)) t).lookup k =
      ((insertAll kvs s).lookup k).map f := by
  induction kvs generalizing s t with
  | nil => exact h
  | cons kv kvs ih =>
    refine @ih (s.insert kv.1 kv.2) (t.insert kv.1 (f kv.2)) ?_
    rw [lookup_insert_if, lookup_insert_if]
    by_cases hk : k = kv.1
    · rw [if_pos hk, if_pos hk, Option.map_some]
    · rw [if_neg hk, if_neg hk, h]

theorem eraseAll_append (ks ks' : List κ) (t : Table κ α) :
    eraseAll (ks ++ ks') t = eraseAll ks' (eraseAll ks t) := List.foldl_append

/-- Deleting keys after a bulk write is writing the rows at the other keys after the deletion. -/
theorem eraseAll_insertAll (ks : List κ) (kvs : List (κ × α)) (t : Table κ α) :
    eraseAll ks (insertAll kvs t) =
      insertAll (kvs.filter fun kv => kv.1 ∉ ks) (eraseAll ks t) := by
  induction kvs generalizing t with
  | nil => rfl
  | cons kv kvs ih =>
    have hstep : insertAll (kv :: kvs) t = insertAll kvs (t.insert kv.1 kv.2) := rfl
    rw [hstep, ih]
    refine Finmap.ext_lookup fun k => ?_
    by_cases hk : kv.1 ∈ ks
    · rw [List.filter_cons_of_neg (by simpa using hk)]
      refine lookup_insertAll_congr _ ?_
      rw [lookup_eraseAll, lookup_eraseAll, lookup_insert_if]
      by_cases hmem : k ∈ ks
      · rw [if_pos hmem, if_pos hmem]
      · have hne : ¬ k = kv.1 := fun heq => hmem (heq ▸ hk)
        rw [if_neg hmem, if_neg hmem, if_neg hne]
    · rw [List.filter_cons_of_pos (by simpa using hk)]
      have hstep' : insertAll (kv :: kvs.filter fun kv => kv.1 ∉ ks) (eraseAll ks t) =
          insertAll (kvs.filter fun kv => kv.1 ∉ ks) ((eraseAll ks t).insert kv.1 kv.2) := rfl
      rw [hstep']
      refine lookup_insertAll_congr _ ?_
      rw [lookup_eraseAll, lookup_insert_if, lookup_insert_if, lookup_eraseAll]
      by_cases heq : k = kv.1
      · have hmem : k ∉ ks := fun hmem => hk (heq ▸ hmem)
        rw [if_pos heq, if_pos heq, if_neg hmem]
      · rw [if_neg heq, if_neg heq]

theorem lookup_modify (k k' : κ) (f : α → α) (t : Table κ α) :
    (t.modify k f).lookup k' = if k' = k then (t.lookup k).map f else t.lookup k' := by
  unfold modify
  cases h : t.lookup k with
  | none =>
    by_cases hk : k' = k
    · rw [if_pos hk, hk, h, Option.map_none]
    · rw [if_neg hk]
  | some v => rw [lookup_insert_if, Option.map_some]

theorem amendAll_append (f : β → α → α) (kvs kvs' : List (κ × β)) (t : Table κ α) :
    amendAll f (kvs ++ kvs') t = amendAll f kvs' (amendAll f kvs t) := List.foldl_append

/-- If a later change hides an earlier one, a row is changed by what a bulk write would leave at its
key. -/
theorem lookup_amendAll {f : β → α → α} (hf : ∀ v w a, f v (f w a) = f v a) (kvs : List (κ × β))
    (t : Table κ α) (k : κ) : (amendAll f kvs t).lookup k =
      (t.lookup k).map fun a => ((insertAll kvs ∅).lookup k).elim a fun v => f v a := by
  induction kvs using List.reverseRecOn with
  | nil => exact Option.map_id'.symm
  | append_singleton kvs kv ih =>
    have hstep : amendAll f (kvs ++ [kv]) t = (amendAll f kvs t).modify kv.1 (f kv.2) :=
      amendAll_append f kvs [kv] t
    have hrows : insertAll (kvs ++ [kv]) ∅ = (insertAll kvs ∅).insert kv.1 kv.2 :=
      insertAll_append kvs [kv] ∅
    rw [hstep, hrows, lookup_modify, lookup_insert_if]
    by_cases hk : k = kv.1
    · rw [if_pos hk, if_pos hk, ← hk, ih, Option.map_map]
      congr 1
      funext a
      rw [Function.comp_apply]
      cases (insertAll kvs ∅).lookup k with
      | none => rfl
      | some v => exact hf kv.2 v a
    · rw [if_neg hk, if_neg hk, ih]

theorem lookup_overwrite (s t : Table κ α) (k : κ) :
    (overwrite s t).lookup k = (s.lookup k).or (t.lookup k) := by
  unfold overwrite
  by_cases h : k ∈ s
  · obtain ⟨v, hv⟩ := Finmap.mem_iff.mp h
    rw [Finmap.lookup_union_left h, hv, Option.some_or]
  · rw [Finmap.lookup_union_right h, Finmap.lookup_eq_none.mpr h, Option.none_or]

theorem lookup_keepIf (p : κ → α → Bool) (t : Table κ α) (k : κ) :
    (keepIf p t).lookup k = (t.lookup k).filter (p k) := by
  ext v
  rw [Finmap.lookup_eq_some_iff, Option.filter_eq_some_iff, Finmap.lookup_eq_some_iff]
  exact Multiset.mem_filter

theorem lookup_mapRows (f : κ → α → β) (t : Table κ α) (k : κ) :
    (mapRows f t).lookup k = (t.lookup k).map (f k) := by
  ext v
  rw [Finmap.lookup_eq_some_iff, Option.map_eq_some_iff]
  refine Multiset.mem_map.trans ?_
  constructor
  · rintro ⟨⟨k', w⟩, hw, heq⟩
    obtain ⟨rfl, rfl⟩ := Sigma.mk.inj_iff.mp heq
    exact ⟨w, Finmap.lookup_eq_some_iff.mpr hw, rfl⟩
  · rintro ⟨w, hw, rfl⟩
    exact ⟨⟨k, w⟩, Finmap.lookup_eq_some_iff.mp hw, rfl⟩

/-- Keeping rows that are all accepted keeps the table. -/
theorem keepIf_eq_self {p : κ → α → Bool} {t : Table κ α}
    (h : ∀ k v, t.lookup k = some v → p k v = true) : keepIf p t = t := by
  refine Finmap.ext_lookup fun k => ?_
  rw [lookup_keepIf]
  cases hk : t.lookup k with
  | none => rfl
  | some v => rw [Option.filter_some, if_pos (h k v hk)]

theorem keepIf_keepIf (p q : κ → α → Bool) (t : Table κ α) :
    keepIf p (keepIf q t) = keepIf (fun k v => q k v && p k v) t := by
  refine Finmap.ext_lookup fun k => ?_
  rw [lookup_keepIf, lookup_keepIf, lookup_keepIf, Option.filter_filter]

/-- Deleting what a bulk write wrote restores the table, if none of the keys was there. -/
theorem eraseAll_insertAll_cancel {ks : List κ} {kvs : List (κ × α)} {t : Table κ α}
    (hkvs : ∀ k ∈ kvs.map Prod.fst, k ∈ ks) (ht : ∀ k ∈ ks, t.lookup k = none) :
    eraseAll ks (insertAll kvs t) = t := by
  refine Finmap.ext_lookup fun k => ?_
  rw [lookup_eraseAll]
  by_cases hk : k ∈ ks
  · rw [if_pos hk, ht k hk]
  · rw [if_neg hk, lookup_insertAll_of_notMem fun hmem => hk (hkvs k hmem)]

/-- So does keeping the rows that were there, if the new ones are refused. -/
theorem keepIf_insertAll_cancel {p : κ → α → Bool} {kvs : List (κ × α)} {t : Table κ α}
    (hkvs : ∀ k ∈ kvs.map Prod.fst, ∀ v, p k v = false)
    (ht : ∀ k v, t.lookup k = some v → p k v = true) : keepIf p (insertAll kvs t) = t := by
  refine Finmap.ext_lookup fun k => ?_
  rw [lookup_keepIf]
  by_cases hk : k ∈ kvs.map Prod.fst
  · have hnone : t.lookup k = none := by
      cases hv : t.lookup k with
      | none => rfl
      | some v => cases (hkvs k hk v).symm.trans (ht k v hv)
    rw [hnone, Option.filter_eq_none_iff]
    intro v _
    rw [hkvs k hk v]
    exact Bool.false_ne_true
  · rw [lookup_insertAll_of_notMem hk]
    cases hv : t.lookup k with
    | none => rfl
    | some v => rw [Option.filter_some, if_pos (ht k v hv)]

theorem Sub.refl (t : Table κ α) : Sub t t := fun _ _ h => h

theorem Sub.trans {s t u : Table κ α} (hst : Sub s t) (htu : Sub t u) : Sub s u :=
  fun k v h => htu k v (hst k v h)

theorem Sub.eraseAll {s t : Table κ α} (h : Sub s t) (ks : List κ) :
    Sub (Table.eraseAll ks s) t := by
  intro k v hk
  rw [lookup_eraseAll] at hk
  split at hk
  · cases hk
  · exact h k v hk

theorem Sub.insertAll {s t : Table κ α} (h : Sub s t) (kvs : List (κ × α)) :
    Sub (Table.insertAll kvs s) (Table.insertAll kvs t) := by
  induction kvs generalizing s t with
  | nil => exact h
  | cons kv kvs ih =>
    refine @ih (s.insert kv.1 kv.2) (t.insert kv.1 kv.2) fun k v hk => ?_
    rw [lookup_insert_if] at hk ⊢
    split at hk
    · rename_i heq
      rw [if_pos heq, hk]
    · rename_i hne
      rw [if_neg hne, h k v hk]

/-! ## Totals -/

/-- The sum of `f` over all rows. -/
def total (f : α → Nat) (t : Table κ α) : Nat := (t.entries.map fun e => f e.2).sum

omit [DecidableEq κ] in
@[simp] theorem total_empty (f : α → Nat) : total f (∅ : Table κ α) = 0 := rfl

theorem total_insert_of_notMem (f : α → Nat) {k : κ} {v : α} {t : Table κ α} (h : k ∉ t) :
    total f (t.insert k v) = f v + total f t := by
  rw [total, Finmap.entries_insert_of_notMem h, Multiset.map_cons, Multiset.sum_cons]
  rfl

/-- Deleting a row takes away exactly its number. -/
theorem total_erase (f : α → Nat) {k : κ} {v : α} {t : Table κ α} (h : t.lookup k = some v) :
    total f (t.erase k) + f v = total f t := by
  have hback : (t.erase k).insert k v = t := by
    refine Finmap.ext_lookup fun k' => ?_
    rw [lookup_insert_if, lookup_erase_if]
    by_cases hk : k' = k
    · rw [if_pos hk, hk, h]
    · rw [if_neg hk, if_neg hk]
  have hsum := total_insert_of_notMem f (v := v) (Finmap.notMem_erase_self (a := k) (s := t))
  rw [hback] at hsum
  omega

/-- The total along a list of the keys. -/
theorem total_eq_sum (f : α → Nat) {ks : List κ} {t : Table κ α} (hnodup : ks.Nodup)
    (hkeys : ∀ k, k ∈ ks ↔ t.lookup k ≠ none) :
    total f t = ((ks.filterMap t.lookup).map f).sum := by
  induction ks generalizing t with
  | nil =>
    have hempty : t = ∅ := Finmap.ext_lookup fun k => by
      rw [Finmap.lookup_empty]
      by_contra hne
      exact List.not_mem_nil ((hkeys k).mpr hne)
    rw [hempty]
    rfl
  | cons k ks ih =>
    obtain ⟨hnot, hrest⟩ := List.nodup_cons.mp hnodup
    obtain ⟨v, hv⟩ := Option.ne_none_iff_exists'.mp ((hkeys k).mp List.mem_cons_self)
    have hsame : ks.filterMap (t.erase k).lookup = ks.filterMap t.lookup := by
      refine List.filterMap_congr fun k' hk' => ?_
      rw [lookup_erase_if, if_neg]
      rintro rfl
      exact hnot hk'
    have hkeys' : ∀ k', k' ∈ ks ↔ (t.erase k).lookup k' ≠ none := by
      intro k'
      rw [lookup_erase_if]
      by_cases hk : k' = k
      · simp [hk, hnot]
      · rw [if_neg hk, ← hkeys k', List.mem_cons, or_iff_right hk]
    have hcons : (k :: ks).filterMap t.lookup = v :: ks.filterMap t.lookup := by
      simp [hv]
    rw [hcons, List.map_cons, List.sum_cons, ← hsame, ← ih hrest hkeys', ← total_erase f hv,
      Nat.add_comm]

/-- The total along a list of keys that leaves out only rows that count nothing. -/
theorem total_eq_sum_of_support (f : α → Nat) {ks : List κ} {t : Table κ α} (hnodup : ks.Nodup)
    (hrest : ∀ k v, t.lookup k = some v → k ∉ ks → f v = 0) :
    total f t = (ks.map fun k => ((t.lookup k).map f).getD 0).sum := by
  induction ks generalizing t with
  | nil =>
    refine Multiset.sum_eq_zero fun n hn => ?_
    obtain ⟨e, he, rfl⟩ := Multiset.mem_map.mp hn
    exact hrest e.1 e.2 (Finmap.lookup_eq_some_iff.mpr he) List.not_mem_nil
  | cons k ks ih =>
    obtain ⟨hnot, hks⟩ := List.nodup_cons.mp hnodup
    have hsame : (ks.map fun k' => (((t.erase k).lookup k').map f).getD 0) =
        ks.map fun k' => ((t.lookup k').map f).getD 0 := by
      refine List.map_congr_left fun k' hk' => ?_
      rw [lookup_erase_if, if_neg]
      rintro rfl
      exact hnot hk'
    have hrest' : ∀ k' v, (t.erase k).lookup k' = some v → k' ∉ ks → f v = 0 := by
      intro k' v hv hk'
      rw [lookup_erase_if] at hv
      by_cases hk : k' = k
      · rw [if_pos hk] at hv
        cases hv
      · rw [if_neg hk] at hv
        exact hrest k' v hv fun hmem => (List.mem_cons.mp hmem).elim hk hk'
    rw [List.map_cons, List.sum_cons, ← hsame, ← ih hks hrest']
    cases hk : t.lookup k with
    | some v =>
      have hone := total_erase f hk
      rw [Option.map_some, Option.getD_some]
      omega
    | none =>
      have hback : t.erase k = t := Finmap.ext_lookup fun k' => by
        rw [lookup_erase_if]
        by_cases hk' : k' = k
        · rw [if_pos hk', hk', hk]
        · rw [if_neg hk']
      rw [Option.map_none, Option.getD_none, hback, Nat.zero_add]

omit [DecidableEq κ] in
/-- Adding up over a part of a list. -/
theorem sum_map_filter (p : α → Bool) (f : α → Nat) (l : List α) :
    ((l.filter p).map f).sum = (l.map fun a => if p a then f a else 0).sum := by
  induction l with
  | nil => rfl
  | cons a l ih =>
    rw [List.map_cons, List.sum_cons, ← ih]
    by_cases ha : p a = true
    · rw [List.filter_cons_of_pos ha, List.map_cons, List.sum_cons, if_pos ha]
    · rw [List.filter_cons_of_neg ha, if_neg ha, Nat.zero_add]

/-- A table with fewer rows has a smaller total. -/
theorem total_mono (f : α → Nat) {s t : Table κ α} (h : Sub s t) : total f s ≤ total f t := by
  have hsub : s.entries ⊆ t.entries := by
    intro e he
    exact Finmap.lookup_eq_some_iff.mp (h e.1 e.2 (Finmap.lookup_eq_some_iff.mpr he))
  have hle : s.entries ≤ t.entries :=
    (Multiset.le_iff_subset s.nodup_entries).mpr hsub
  obtain ⟨rest, hrest⟩ := Multiset.le_iff_exists_add.mp hle
  rw [total, total, hrest, Multiset.map_add, Multiset.sum_add]
  exact Nat.le_add_right _ _

/-- Writing a row adds at most its number. -/
theorem total_insert_le (f : α → Nat) (k : κ) (v : α) (t : Table κ α) :
    total f (t.insert k v) ≤ f v + total f t := by
  have hsplit : t.insert k v = (t.erase k).insert k v := by
    refine Finmap.ext_lookup fun k' => ?_
    rw [lookup_insert_if, lookup_insert_if, lookup_erase_if]
    by_cases hk : k' = k
    · rw [if_pos hk, if_pos hk]
    · rw [if_neg hk, if_neg hk, if_neg hk]
  have hmono : total f (t.erase k) ≤ total f t := by
    refine total_mono f fun k' v' h => ?_
    rw [lookup_erase_if] at h
    by_cases hk : k' = k
    · rw [if_pos hk] at h
      cases h
    · rwa [if_neg hk] at h
  rw [hsplit, total_insert_of_notMem f Finmap.notMem_erase_self]
  omega

theorem total_insertAll_le (f : α → Nat) (kvs : List (κ × α)) (t : Table κ α) :
    total f (insertAll kvs t) ≤ total f t + (kvs.map fun kv => f kv.2).sum := by
  induction kvs generalizing t with
  | nil => exact Nat.le_refl _
  | cons kv kvs ih =>
    have hstep : insertAll (kv :: kvs) t = insertAll kvs (t.insert kv.1 kv.2) := rfl
    have hone := total_insert_le f kv.1 kv.2 t
    have hrest := ih (t.insert kv.1 kv.2)
    rw [hstep, List.map_cons, List.sum_cons]
    omega

/-! ## Scans -/

/-- The pairs of key and row of a table, in the order in which the table stores them. -/
def toPairs (l : AList fun _ : κ => α) : List (κ × α) := l.entries.map fun e => (e.1, e.2)

end Table

/-- The order in which a scan returns the rows of a table. -/
class ScanOrder (κ : Type) [DecidableEq κ] where
  /-- The rows of a table as a list. -/
  scan : {α : Type} → Table κ α → List (κ × α)
  mem_scan : ∀ {α : Type} (t : Table κ α) (k : κ) (v : α),
    (k, v) ∈ scan t ↔ t.lookup k = some v
  nodup_scan : ∀ {α : Type} (t : Table κ α), ((scan t).map Prod.fst).Nodup

export ScanOrder (scan mem_scan nodup_scan)

namespace Table

/-- A scan has as many rows as the table has keys. -/
theorem length_scan [ScanOrder κ] (t : Table κ α) : (scan t).length = t.keys.card := by
  have hfin : ((scan t).map Prod.fst).toFinset = t.keys := by
    ext k
    rw [List.mem_toFinset, List.mem_map, Finmap.mem_keys, Finmap.mem_iff]
    constructor
    · rintro ⟨⟨k', v⟩, hmem, rfl⟩
      exact ⟨v, (mem_scan t k' v).mp hmem⟩
    · rintro ⟨v, hv⟩
      exact ⟨(k, v), (mem_scan t k v).mpr hv, rfl⟩
  rw [← hfin, List.toFinset_card_of_nodup (nodup_scan t), List.length_map]

section Sorted

variable (le : κ → κ → Bool)

/-- The rows of a table, sorted by key. -/
def sortedScan (htrans : ∀ a b c, le a b → le b c → le a c) (htotal : ∀ a b, le a b ∨ le b a)
    (hanti : ∀ a b, le a b → le b a → a = b) (t : Table κ α) : List (κ × α) :=
  t.liftOn (fun l => (toPairs l).insertionSort fun a b => le a.1 b.1) <| by
    intro l l' hperm
    have : Std.Total fun a b : κ × α => le a.1 b.1 = true := ⟨fun a b => htotal a.1 b.1⟩
    have : IsTrans (κ × α) fun a b => le a.1 b.1 = true := ⟨fun a b c => htrans a.1 b.1 c.1⟩
    have hpairs : (toPairs l).Perm (toPairs l') := hperm.map _
    have hsorted := ((List.perm_insertionSort (fun a b : κ × α => le a.1 b.1) (toPairs l)).trans
      hpairs).trans (List.perm_insertionSort (fun a b : κ × α => le a.1 b.1) (toPairs l')).symm
    refine List.Perm.eq_of_pairwise ?_ (List.pairwise_insertionSort _ _)
      (List.pairwise_insertionSort _ _) hsorted
    intro a b ha hb hab hba
    have ha' : a ∈ toPairs l := (List.mem_insertionSort _).mp ha
    have hb' : b ∈ toPairs l := hpairs.symm.mem_iff.mp ((List.mem_insertionSort _).mp hb)
    obtain ⟨e, he, rfl⟩ := List.mem_map.mp ha'
    obtain ⟨e', he', rfl⟩ := List.mem_map.mp hb'
    have hkey : e.1 = e'.1 := hanti _ _ hab hba
    have heq : e = e' := l.nodupKeys.eq_of_fst_eq he he' hkey
    rw [heq]

/-- Sorting by a linear order on the keys is a scan order. -/
@[reducible] def sortedOrder (htrans : ∀ a b c, le a b → le b c → le a c)
    (htotal : ∀ a b, le a b ∨ le b a) (hanti : ∀ a b, le a b → le b a → a = b) : ScanOrder κ where
  scan := sortedScan le htrans htotal hanti
  mem_scan t k v := by
    induction t using Finmap.induction_on with
    | H l =>
      show (k, v) ∈ (toPairs l).insertionSort _ ↔ _
      rw [List.mem_insertionSort, Finmap.lookup_toFinmap, ← Option.mem_def, AList.mem_lookup_iff]
      constructor
      · intro h
        obtain ⟨e, he, heq⟩ := List.mem_map.mp h
        cases heq
        exact he
      · intro h
        exact List.mem_map.mpr ⟨⟨k, v⟩, h, rfl⟩
  nodup_scan t := by
    induction t using Finmap.induction_on with
    | H l =>
      show (((toPairs l).insertionSort _).map Prod.fst).Nodup
      have hperm := (List.perm_insertionSort (fun a b : κ × _ => le a.1 b.1) (toPairs l)).map
        Prod.fst
      rw [hperm.nodup_iff]
      have hkeys : (toPairs l).map Prod.fst = l.keys := by
        simp [toPairs, AList.keys, List.keys, Function.comp_def]
      rw [hkeys]
      exact l.keys_nodup

end Sorted

end Table

end Toolkit
