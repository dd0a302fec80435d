import ScarletCoin.Toolkit.Table

/-!
# Ledgers over a table

A posting spends rows of a table and creates new ones. A group of postings is made in a `Session`
that keeps the keys it created and, for undoing, the rows it spent that it did not create itself.
Undoing deletes the created keys and writes the logged rows back: the rows that appear were there
before the session (`Session.Sound.restore_sub`), and if the session created its keys afresh, the
table is the one before it (`Session.Sound.restore_eq`).

A history is a list of postings, the newest first, and `tableAfter` is the table it leads to from an
empty one. If every key belongs to the posting that created it and the postings have distinct names,
then a spent key never comes back (`spent_gone`); and if a posting that repeats the name of an
earlier one also repeats its spends, it cannot be made (`id_fresh`), so the names stay distinct.
-/

set_option autoImplicit false

namespace Toolkit

variable {κ α ι : Type} [DecidableEq κ]

/-! ## Spending a list of keys -/

/-- The keys are spent one after the other, from a table with these rows to a table. -/
inductive Spends : Table κ α → List κ → List α → Table κ α → Prop where
  | nil (t : Table κ α) : Spends t [] [] t
  | cons {t t' : Table κ α} {k : κ} {v : α} {ks : List κ} {vs : List α} :
      t.lookup k = some v → Spends (t.erase k) ks vs t' → Spends t (k :: ks) (v :: vs) t'

namespace Spends

variable {t t' : Table κ α} {ks : List κ} {vs : List α}

theorem eq_eraseAll (h : Spends t ks vs t') : t' = Table.eraseAll ks t := by
  induction h with
  | nil t => rfl
  | cons _ _ ih => exact ih

/-- The rows spent are the rows of the table before. -/
theorem lookups (h : Spends t ks vs t') : ks.map t.lookup = vs.map some := by
  induction h with
  | nil t => rfl
  | @cons t t' k v ks vs hk hrest ih =>
    have hsame : ∀ k' ∈ ks, (t.erase k).lookup k' = t.lookup k' := by
      intro k' hk'
      have hsome : (t.erase k).lookup k' ≠ none := by
        intro hnone
        have hmem : (t.erase k).lookup k' ∈ ks.map (t.erase k).lookup :=
          List.mem_map_of_mem hk'
        rw [ih, hnone] at hmem
        obtain ⟨v', -, hv'⟩ := List.mem_map.mp hmem
        cases hv'
      rw [Table.lookup_erase_if] at hsome ⊢
      split at hsome
      · exact absurd rfl hsome
      · rename_i hne
        rw [if_neg hne]
    rw [List.map_cons, List.map_cons, hk, ← ih, List.map_congr_left hsame]

theorem mem_lookup (h : Spends t ks vs t') {k : κ} (hk : k ∈ ks) : t.lookup k ≠ none := by
  intro hnone
  have hmem : t.lookup k ∈ ks.map t.lookup := List.mem_map_of_mem hk
  rw [h.lookups, hnone] at hmem
  obtain ⟨v, -, hv⟩ := List.mem_map.mp hmem
  cases hv

/-- What is spent is taken away from the total. -/
theorem total_add (h : Spends t ks vs t') (f : α → Nat) :
    Table.total f t' + (vs.map f).sum = Table.total f t := by
  induction h with
  | nil t => rfl
  | @cons t t' k v ks vs hk hrest ih =>
    have hone := Table.total_erase f hk
    rw [List.map_cons, List.sum_cons]
    omega

/-- Keys can be spent one after the other iff each is there and none is listed twice. -/
theorem possible_iff {t : Table κ α} {ks : List κ} :
    (∃ vs t', Spends t ks vs t') ↔ ks.Nodup ∧ ∀ k ∈ ks, t.lookup k ≠ none := by
  induction ks generalizing t with
  | nil => exact ⟨fun _ => ⟨List.nodup_nil, fun k hk => absurd hk List.not_mem_nil⟩,
      fun _ => ⟨[], t, .nil t⟩⟩
  | cons k ks ih =>
    rw [List.nodup_cons, List.forall_mem_cons]
    constructor
    · rintro ⟨vs, t', h⟩
      cases h with
      | @cons _ _ _ v _ vs hk hrest =>
        obtain ⟨hnodup, hthere⟩ := ih.mp ⟨vs, t', hrest⟩
        refine ⟨⟨fun hmem => ?_, hnodup⟩, by rw [hk]; exact Option.some_ne_none v, ?_⟩
        · exact hthere k hmem (by rw [Table.lookup_erase_if, if_pos rfl])
        · intro k' hk'
          have hne := hthere k' hk'
          rw [Table.lookup_erase_if] at hne
          split at hne
          · exact absurd rfl hne
          · exact hne
    · rintro ⟨⟨hnot, hnodup⟩, hk, hthere⟩
      obtain ⟨v, hv⟩ := Option.ne_none_iff_exists'.mp hk
      have hleft : ∀ k' ∈ ks, (t.erase k).lookup k' ≠ none := by
        intro k' hk'
        have hne : ¬ k' = k := fun heq => hnot (heq ▸ hk')
        rw [Table.lookup_erase_if, if_neg hne]
        exact hthere k' hk'
      obtain ⟨vs, t', hrest⟩ := ih.mpr ⟨hnodup, hleft⟩
      exact ⟨v :: vs, t', .cons hv hrest⟩

end Spends

/-! ## Sessions -/

/-- A table in the middle of a group of postings, with the keys created so far and the rows spent so
far that were not created in it. -/
structure Session (κ α : Type) where
  table : Table κ α
  created : List κ
  undo : List (κ × α)

/-- Undo a session: delete the created keys and write the logged rows back. -/
def restore (created : List κ) (undo : List (κ × α)) (t : Table κ α) : Table κ α :=
  Table.insertAll undo (Table.eraseAll created t)

namespace Session

/-- Nothing has happened yet. -/
def start (t : Table κ α) : Session κ α := ⟨t, [], []⟩

/-- Spend the row `v` at `k`. -/
def spend (σ : Session κ α) (k : κ) (v : α) : Session κ α where
  table := σ.table.erase k
  created := σ.created
  undo := if k ∈ σ.created then σ.undo else σ.undo ++ [(k, v)]

/-- Create rows. -/
def create (σ : Session κ α) (rows : List (κ × α)) : Session κ α where
  table := Table.insertAll rows σ.table
  created := rows.map Prod.fst ++ σ.created
  undo := σ.undo

/-- The books of a session that started from `t₀`: away from the created keys the table is `t₀`
without the logged rows, and the log holds rows of `t₀`, each once. -/
structure Sound (t₀ : Table κ α) (σ : Session κ α) : Prop where
  untouched : ∀ k, k ∉ σ.created → k ∉ σ.undo.map Prod.fst → σ.table.lookup k = t₀.lookup k
  spent : ∀ k, k ∉ σ.created → k ∈ σ.undo.map Prod.fst → σ.table.lookup k = none
  logged : ∀ k v, (k, v) ∈ σ.undo → t₀.lookup k = some v
  once : (σ.undo.map Prod.fst).Nodup

theorem Sound.start (t : Table κ α) : Sound t (Session.start t) where
  untouched _ _ _ := rfl
  spent _ _ h := absurd h List.not_mem_nil
  logged _ _ h := absurd h List.not_mem_nil
  once := List.nodup_nil

variable {t₀ : Table κ α} {σ : Session κ α}

/-- Spending a row that is there keeps the books. -/
theorem Sound.spend (h : Sound t₀ σ) {k : κ} {v : α} (hk : σ.table.lookup k = some v) :
    Sound t₀ (σ.spend k v) := by
  by_cases hc : k ∈ σ.created
  · have hundo : (σ.spend k v).undo = σ.undo := if_pos hc
    refine ⟨fun k' hc' hu => ?_, fun k' hc' hu => ?_,
      fun k' v' hmem => ?_, by rw [hundo]; exact h.once⟩
    · have hne : k' ≠ k := fun heq => hc' (heq ▸ hc)
      rw [hundo] at hu
      rw [Session.spend, Table.lookup_erase_if, if_neg hne, h.untouched k' hc' hu]
    · rw [hundo] at hu
      rw [Session.spend, Table.lookup_erase_if, h.spent k' hc' hu, ite_self]
    · rw [hundo] at hmem
      exact h.logged k' v' hmem
  · have hundo : (σ.spend k v).undo = σ.undo ++ [(k, v)] := if_neg hc
    -- a row outside the created ones that is still there has not been spent
    have hfresh : k ∉ σ.undo.map Prod.fst := by
      intro hu
      rw [h.spent k hc hu] at hk
      cases hk
    have hkeys : (σ.spend k v).undo.map Prod.fst = σ.undo.map Prod.fst ++ [k] := by
      rw [hundo, List.map_append]
      rfl
    refine ⟨fun k' hc' hu => ?_, fun k' hc' hu => ?_, fun k' v' hmem => ?_, ?_⟩
    · rw [hkeys, List.mem_append, List.mem_singleton, not_or] at hu
      rw [Session.spend, Table.lookup_erase_if, if_neg hu.2, h.untouched k' hc' hu.1]
    · rw [hkeys, List.mem_append, List.mem_singleton] at hu
      rw [Session.spend, Table.lookup_erase_if]
      rcases hu with hu | rfl
      · rw [h.spent k' hc' hu, ite_self]
      · rw [if_pos rfl]
    · rw [hundo, List.mem_append, List.mem_singleton] at hmem
      rcases hmem with hmem | heq
      · exact h.logged k' v' hmem
      · obtain ⟨rfl, rfl⟩ := Prod.mk.inj heq
        rw [← h.untouched k' hc hfresh, hk]
    · rw [hkeys]
      exact List.nodup_append.mpr ⟨h.once, List.nodup_singleton k,
        fun a ha b hb heq => hfresh (List.mem_singleton.mp hb ▸ heq ▸ ha)⟩

/-- Creating rows keeps the books. -/
theorem Sound.create (h : Sound t₀ σ) (rows : List (κ × α)) : Sound t₀ (σ.create rows) := by
  have hnot : ∀ k, k ∉ (σ.create rows).created → k ∉ rows.map Prod.fst ∧ k ∉ σ.created := by
    intro k hk
    rwa [Session.create, List.mem_append, not_or] at hk
  refine ⟨fun k hc hu => ?_, fun k hc hu => ?_, h.logged, h.once⟩
  · obtain ⟨hrows, hold⟩ := hnot k hc
    rw [Session.create, Table.lookup_insertAll_of_notMem hrows, h.untouched k hold hu]
  · obtain ⟨hrows, hold⟩ := hnot k hc
    rw [Session.create, Table.lookup_insertAll_of_notMem hrows, h.spent k hold hu]

/-- Undoing a session on a part of its table brings back only rows from before it. -/
theorem Sound.restore_sub (h : Sound t₀ σ) {created : List κ} (hc : ∀ k ∈ σ.created, k ∈ created)
    {t : Table κ α} (ht : Table.Sub t σ.table) : Table.Sub (restore created σ.undo t) t₀ := by
  intro k v hk
  rcases Table.lookup_insertAll_cases hk with hmem | ⟨hnot, hold⟩
  · exact h.logged k v hmem
  · rw [Table.lookup_eraseAll] at hold
    split at hold
    · cases hold
    · rename_i hkeep
      rw [← h.untouched k (fun hcr => hkeep (hc k hcr)) hnot]
      exact ht k v hold

/-- Undoing a session that created its keys afresh gives the table before it. -/
theorem Sound.restore_eq (h : Sound t₀ σ) {created : List κ}
    (hc : ∀ k, k ∈ created ↔ k ∈ σ.created) (hfresh : ∀ k ∈ σ.created, t₀.lookup k = none) :
    restore created σ.undo σ.table = t₀ := by
  refine Finmap.ext_lookup fun k => ?_
  by_cases hu : k ∈ σ.undo.map Prod.fst
  · obtain ⟨⟨k', v⟩, hmem, rfl⟩ := List.mem_map.mp hu
    rw [restore, Table.lookup_insertAll_of_mem h.once hmem, h.logged k' v hmem]
  · rw [restore, Table.lookup_insertAll_of_notMem hu, Table.lookup_eraseAll]
    by_cases hk : k ∈ created
    · rw [if_pos hk, hfresh k ((hc k).mp hk)]
    · rw [if_neg hk, h.untouched k (fun hcr => hk ((hc k).mpr hcr)) hu]

end Session

/-! ## Histories -/

/-- A named posting: the keys it spends and the rows it creates. -/
structure Posting (ι κ α : Type) where
  id : ι
  spends : List κ
  creates : List (κ × α)

namespace Posting

/-- The table after a posting. -/
def apply (p : Posting ι κ α) (t : Table κ α) : Table κ α :=
  Table.insertAll p.creates (Table.eraseAll p.spends t)

end Posting

/-- The table that a history leads to. -/
def tableAfter : List (Posting ι κ α) → Table κ α
  | [] => ∅
  | p :: ps => p.apply (tableAfter ps)

/-- The table that making the postings in the order given leads to from `t`. -/
def replay (ps : List (Posting ι κ α)) (t : Table κ α) : Table κ α :=
  ps.foldl (fun t p => p.apply t) t

/-- A row that is there was created by a posting of the history. -/
theorem created_of_lookup {ps : List (Posting ι κ α)} {k : κ} {v : α}
    (h : (tableAfter ps).lookup k = some v) : ∃ p ∈ ps, (k, v) ∈ p.creates := by
  induction ps with
  | nil =>
    rw [tableAfter, Finmap.lookup_empty] at h
    cases h
  | cons p ps ih =>
    rcases Table.lookup_insertAll_cases h with hmem | ⟨-, hold⟩
    · exact ⟨p, List.mem_cons_self, hmem⟩
    · rw [Table.lookup_eraseAll] at hold
      split at hold
      · cases hold
      · obtain ⟨q, hq, hmem⟩ := ih hold
        exact ⟨q, List.mem_cons_of_mem p hq, hmem⟩

/-- Every row that a history ever created. -/
def createdBy : List (Posting ι κ α) → Table κ α
  | [] => ∅
  | p :: ps => Table.insertAll p.creates (createdBy ps)

/-- What is there was created. -/
theorem tableAfter_sub (ps : List (Posting ι κ α)) : Table.Sub (tableAfter ps) (createdBy ps) := by
  induction ps with
  | nil => exact Table.Sub.refl ∅
  | cons p ps ih => exact (ih.eraseAll p.spends).insertAll p.creates

theorem createdBy_append (ps hist : List (Posting ι κ α)) :
    createdBy (ps.reverse ++ hist) =
      Table.insertAll (ps.flatMap Posting.creates) (createdBy hist) := by
  induction ps generalizing hist with
  | nil => rfl
  | cons p ps ih =>
    rw [List.reverse_cons, List.append_assoc, List.flatMap_cons, Table.insertAll_append]
    exact ih (p :: hist)

/-- Every posting of a history spends keys that are there. -/
def Covered : List (Posting ι κ α) → Prop
  | [] => True
  | p :: ps => (∀ k ∈ p.spends, (tableAfter ps).lookup k ≠ none) ∧ Covered ps

/-- Each of the postings, made in the order given from `t`, spends keys that are there. -/
def Payable : List (Posting ι κ α) → Table κ α → Prop
  | [], _ => True
  | p :: ps, t => (∀ k ∈ p.spends, t.lookup k ≠ none) ∧ Payable ps (p.apply t)

/-- Postings that can be made after a history continue it. -/
theorem Covered.append {hist ps : List (Posting ι κ α)} (hcov : Covered hist)
    (hpay : Payable ps (tableAfter hist)) : Covered (ps.reverse ++ hist) := by
  induction ps generalizing hist with
  | nil => exact hcov
  | cons p ps ih =>
    rw [List.reverse_cons, List.append_assoc]
    exact @ih (p :: hist) ⟨hpay.1, hcov⟩ hpay.2

theorem Covered.below {ps hist : List (Posting ι κ α)} (h : Covered (ps ++ hist)) :
    Covered hist := by
  induction ps with
  | nil => exact h
  | cons p ps ih => exact ih h.2

theorem tableAfter_append (ps hist : List (Posting ι κ α)) :
    tableAfter (ps.reverse ++ hist) = replay ps (tableAfter hist) := by
  induction ps generalizing hist with
  | nil => rfl
  | cons p ps ih =>
    rw [List.reverse_cons, List.append_assoc]
    exact ih (p :: hist)

/-! ## Postings at once -/

/-- No posting creates a key that it or an earlier one spends. -/
def Forward : List (Posting ι κ α) → Prop
  | [] => True
  | p :: ps => (∀ k ∈ p.spends, ∀ q ∈ p :: ps, k ∉ q.creates.map Prod.fst) ∧ Forward ps

/-- Postings that only look forward can be made at once: write all they create, then delete all they
spend. -/
theorem Forward.replay_eq {ps : List (Posting ι κ α)} (h : Forward ps) (t : Table κ α) :
    replay ps t = Table.eraseAll (ps.flatMap Posting.spends)
      (Table.insertAll (ps.flatMap Posting.creates) t) := by
  induction ps generalizing t with
  | nil => rfl
  | cons p ps ih =>
    have hstep : replay (p :: ps) t = replay ps (p.apply t) := rfl
    refine Finmap.ext_lookup fun k => ?_
    rw [hstep, ih h.2, Posting.apply, ← Table.insertAll_append, Table.lookup_eraseAll,
      Table.lookup_eraseAll, List.flatMap_cons, List.flatMap_cons]
    by_cases hlater : k ∈ ps.flatMap Posting.spends
    · rw [if_pos hlater, if_pos (List.mem_append_right _ hlater)]
    · rw [if_neg hlater]
      by_cases hk : k ∈ p.spends
      · -- a key that `p` spends is not written again
        have hnot : k ∉ (p.creates ++ ps.flatMap Posting.creates).map Prod.fst := by
          rw [List.map_append, List.mem_append, List.map_flatMap, List.mem_flatMap]
          rintro (hp | ⟨q, hq, hkq⟩)
          · exact h.1 k hk p List.mem_cons_self hp
          · exact h.1 k hk q (List.mem_cons_of_mem p hq) hkq
        rw [if_pos (List.mem_append_left _ hk), Table.lookup_insertAll_of_notMem hnot,
          Table.lookup_eraseAll, if_pos hk]
      · rw [if_neg (by rw [List.mem_append]; exact not_or.mpr ⟨hk, hlater⟩)]
        refine Table.lookup_insertAll_congr _ ?_
        rw [Table.lookup_eraseAll, if_neg hk]

omit [DecidableEq κ] in
theorem Forward.of_append {ps qs : List (Posting ι κ α)} (h : Forward (ps ++ qs)) :
    Forward ps ∧ Forward qs := by
  induction ps with
  | nil => exact ⟨trivial, h⟩
  | cons p ps ih =>
    obtain ⟨hps, hqs⟩ := ih h.2
    exact ⟨⟨fun k hk q hq => h.1 k hk q (List.mem_append_left qs hq), hps⟩, hqs⟩

/-- Every posting spends keys that are in the table or that an earlier posting created. -/
def Sourced (t : Table κ α) (ps : List (Posting ι κ α)) : Prop :=
  ∀ before p after, ps = before ++ p :: after → ∀ k ∈ p.spends,
    t.lookup k ≠ none ∨ k ∈ (before.flatMap Posting.creates).map Prod.fst

/-- A row that is there after some postings was there before them or was created by one. -/
theorem lookup_replay_cases {ps : List (Posting ι κ α)} {t : Table κ α} {k : κ}
    (h : (replay ps t).lookup k ≠ none) :
    t.lookup k ≠ none ∨ k ∈ (ps.flatMap Posting.creates).map Prod.fst := by
  induction ps generalizing t with
  | nil => exact .inl h
  | cons p ps ih =>
    rw [List.flatMap_cons, List.map_append, List.mem_append]
    rcases @ih (p.apply t) h with hone | hlater
    · obtain ⟨v, hv⟩ := Option.ne_none_iff_exists'.mp hone
      rcases Table.lookup_insertAll_cases hv with hmem | ⟨-, hold⟩
      · exact .inr (.inl (List.mem_map_of_mem hmem))
      · rw [Table.lookup_eraseAll] at hold
        split at hold
        · cases hold
        · rw [hold]
          exact .inl (Option.some_ne_none v)
    · exact .inr (.inr hlater)

section Ownership

variable {owner : κ → ι}

/-- Every key that a posting creates carries the name of the posting. -/
def Owned (owner : κ → ι) (p : Posting ι κ α) : Prop :=
  ∀ k ∈ p.creates.map Prod.fst, owner k = p.id

theorem Posting.lookup_apply {p : Posting ι κ α} (ho : Owned owner p) {t : Table κ α} {k : κ}
    {v : α} (hk : (p.apply t).lookup k = some v) :
    owner k = p.id ∨ (k ∉ p.spends ∧ t.lookup k = some v) := by
  rcases Table.lookup_insertAll_cases hk with hmem | ⟨-, hold⟩
  · exact .inl (ho k (List.mem_map_of_mem hmem))
  · rw [Table.lookup_eraseAll] at hold
    split at hold
    · cases hold
    · rename_i hns
      exact .inr ⟨hns, hold⟩

/-- Postings of new, distinct names that find what they spend look forward only. -/
theorem Sourced.forward {t : Table κ α} {ps : List (Posting ι κ α)} (h : Sourced t ps)
    (ho : ∀ p ∈ ps, Owned owner p) (hids : (ps.map Posting.id).Nodup)
    (hnew : ∀ k, t.lookup k ≠ none → owner k ∉ ps.map Posting.id) : Forward ps := by
  have hsuffix : ∀ before after : List (Posting ι κ α), ps = before ++ after → Forward after := by
    intro before after hsplit
    induction after generalizing before with
    | nil => trivial
    | cons p after ih =>
      refine ⟨fun k hk q hq hcreated => ?_, ih (before ++ [p]) (by rw [hsplit]; simp)⟩
      have hqmem : q ∈ ps := by
        rw [hsplit]
        exact List.mem_append_right _ hq
      have howner : owner k = q.id := ho q hqmem k hcreated
      rcases h before p after hsplit k hk with hthere | hearlier
      · exact hnew k hthere (howner ▸ List.mem_map_of_mem hqmem)
      · -- the key would belong to an earlier posting and to `q`
        rw [List.map_flatMap, List.mem_flatMap] at hearlier
        obtain ⟨r, hr, hkr⟩ := hearlier
        have hrmem : r ∈ ps := by
          rw [hsplit]
          exact List.mem_append_left _ hr
        rw [hsplit, List.map_append] at hids
        exact (List.nodup_append.mp hids).2.2 _ (List.mem_map_of_mem hr) _
          (List.mem_map_of_mem hq) ((ho r hrmem k hkr).symm.trans howner)
  exact hsuffix [] ps rfl

/-- What a posting spends is still there when its turn comes, if it is spent once. -/
theorem Forward.lookup_replay {t : Table κ α} {before after : List (Posting ι κ α)}
    {p : Posting ι κ α} (h : Forward (before ++ p :: after))
    (honce : ((before ++ p :: after).flatMap Posting.spends).Nodup) {k : κ} (hk : k ∈ p.spends) :
    (replay before t).lookup k =
      (Table.insertAll ((before ++ p :: after).flatMap Posting.creates) t).lookup k := by
  obtain ⟨hbefore, hrest⟩ := h.of_append
  rw [List.flatMap_append] at honce
  have hunspent : k ∉ before.flatMap Posting.spends := by
    intro hmem
    refine (List.nodup_append.mp honce).2.2 k hmem k ?_ rfl
    rw [List.flatMap_cons]
    exact List.mem_append_left _ hk
  have hnot : k ∉ ((p :: after).flatMap Posting.creates).map Prod.fst := by
    rw [List.map_flatMap, List.mem_flatMap]
    rintro ⟨q, hq, hkq⟩
    exact hrest.1 k hk q hq hkq
  rw [hbefore.replay_eq, Table.lookup_eraseAll, if_neg hunspent, List.flatMap_append,
    Table.insertAll_append, Table.lookup_insertAll_of_notMem hnot]

/-- Postings of new, distinct names can be made one after the other iff each finds what it spends,
in the table or made by an earlier one, and nothing is spent twice. -/
theorem playable_iff {t : Table κ α} {ps : List (Posting ι κ α)}
    (ho : ∀ p ∈ ps, Owned owner p) (hids : (ps.map Posting.id).Nodup)
    (hnew : ∀ k, t.lookup k ≠ none → owner k ∉ ps.map Posting.id) :
    (∀ before p after, ps = before ++ p :: after →
      p.spends.Nodup ∧ ∀ k ∈ p.spends, (replay before t).lookup k ≠ none) ↔
    Sourced t ps ∧ (ps.flatMap Posting.spends).Nodup := by
  constructor
  · intro h
    have hsourced : Sourced t ps := fun before p after hsplit k hk =>
      lookup_replay_cases ((h before p after hsplit).2 k hk)
    have hforward := hsourced.forward ho hids hnew
    refine ⟨hsourced, ?_⟩
    -- what a prefix spends is listed once: a key spent before is not there any more
    have hprefix : ∀ before after, ps = before ++ after →
        (before.flatMap Posting.spends).Nodup := by
      intro before
      induction before using List.reverseRecOn with
      | nil => exact fun _ _ => List.nodup_nil
      | append_singleton before p ih =>
        intro after hsplit
        have hsplit' : ps = before ++ p :: after := by
          rw [hsplit, List.append_assoc]
          rfl
        obtain ⟨hone, hthere⟩ := h before p after hsplit'
        rw [List.flatMap_append, List.flatMap_cons, List.flatMap_nil, List.append_nil]
        refine List.nodup_append.mpr ⟨ih (p :: after) hsplit', hone, fun k hk k' hk' heq => ?_⟩
        subst heq
        have hmade := hthere k hk'
        rw [(Forward.of_append (hsplit' ▸ hforward)).1.replay_eq, Table.lookup_eraseAll,
          if_pos hk] at hmade
        exact hmade rfl
    exact hprefix ps [] (List.append_nil ps).symm
  · rintro ⟨hsourced, honce⟩ before p after hsplit
    have hforward := hsourced.forward ho hids hnew
    refine ⟨?_, fun k hk => ?_⟩
    · rw [hsplit, List.flatMap_append, List.flatMap_cons] at honce
      exact (List.nodup_append.mp (List.nodup_append.mp honce).2.1).1
    · rw [Forward.lookup_replay (hsplit ▸ hforward) (hsplit ▸ honce) hk]
      refine Table.lookup_insertAll_ne_none ?_
      rcases hsourced before p after hsplit k hk with hthere | hearlier
      · exact .inl hthere
      · rw [List.flatMap_append, List.map_append, List.mem_append]
        exact .inr (.inl hearlier)

/-- A key that is there belongs to a posting of the history. -/
theorem owner_mem {ps : List (Posting ι κ α)} (ho : ∀ p ∈ ps, Owned owner p) {k : κ}
    (hk : (tableAfter ps).lookup k ≠ none) : owner k ∈ ps.map Posting.id := by
  induction ps with
  | nil => exact absurd (Finmap.lookup_empty k) hk
  | cons p ps ih =>
    obtain ⟨v, hv⟩ := Option.ne_none_iff_exists'.mp hk
    rcases Posting.lookup_apply (ho p List.mem_cons_self) hv with howner | ⟨-, hold⟩
    · rw [howner]
      exact List.mem_cons_self
    · refine List.mem_cons_of_mem _ (ih (fun q hq => ho q (List.mem_cons_of_mem p hq)) ?_)
      rw [hold]
      exact Option.some_ne_none v

/-- A key that a posting of the history spends belongs to a posting of the history. -/
theorem owner_mem_of_spent {ps : List (Posting ι κ α)} (ho : ∀ p ∈ ps, Owned owner p)
    (hcov : Covered ps) {p : Posting ι κ α} (hp : p ∈ ps) {k : κ} (hk : k ∈ p.spends) :
    owner k ∈ ps.map Posting.id := by
  induction ps with
  | nil => cases hp
  | cons q ps ih =>
    have ho' : ∀ p ∈ ps, Owned owner p := fun p hp => ho p (List.mem_cons_of_mem q hp)
    refine List.mem_cons_of_mem _ ?_
    rcases List.mem_cons.mp hp with rfl | hp
    · exact owner_mem ho' (hcov.1 k hk)
    · exact ih ho' hcov.2 hp

/-- In a history of distinct names, a spent key never comes back. -/
theorem spent_gone {ps : List (Posting ι κ α)} (ho : ∀ p ∈ ps, Owned owner p)
    (hcov : Covered ps) (hids : (ps.map Posting.id).Nodup) {p : Posting ι κ α} (hp : p ∈ ps) {k : κ}
    (hk : k ∈ p.spends) : (tableAfter ps).lookup k = none := by
  induction ps with
  | nil => cases hp
  | cons q ps ih =>
    have ho' : ∀ p ∈ ps, Owned owner p := fun p hp => ho p (List.mem_cons_of_mem q hp)
    obtain ⟨hq, hids'⟩ := List.nodup_cons.mp hids
    by_contra hback
    obtain ⟨v, hv⟩ := Option.ne_none_iff_exists'.mp hback
    -- the owner of the key made its posting before the key was spent, so it is not `q`
    have howner : owner k ∈ ps.map Posting.id := by
      rcases List.mem_cons.mp hp with rfl | hp
      · exact owner_mem ho' (hcov.1 k hk)
      · exact owner_mem_of_spent ho' hcov.2 hp hk
    rcases Posting.lookup_apply (ho q List.mem_cons_self) hv with heq | ⟨hns, hold⟩
    · exact hq (heq ▸ howner)
    · rcases List.mem_cons.mp hp with rfl | hp
      · exact hns hk
      · rw [ih ho' hcov.2 hids' hp] at hold
        cases hold

/-- A posting that repeats the spends of every earlier one of its name, and spends something, has a
new name. -/
theorem id_fresh {q : Posting ι κ α} {ps : List (Posting ι κ α)} (ho : ∀ p ∈ ps, Owned owner p)
    (hcov : Covered (q :: ps)) (hids : (ps.map Posting.id).Nodup)
    (hsame : ∀ p ∈ ps, p.id = q.id → ∃ k ∈ q.spends, k ∈ p.spends) :
    q.id ∉ ps.map Posting.id := by
  intro hmem
  obtain ⟨p, hp, hid⟩ := List.mem_map.mp hmem
  obtain ⟨k, hkq, hkp⟩ := hsame p hp hid
  exact hcov.1 k hkq (spent_gone ho hcov.2 hids hp hkp)

/-- Postings of distinct names, made after a history, keep the names of the history distinct if each
of them shares a spend with every earlier posting of its name. -/
theorem ids_nodup_append {hist ps : List (Posting ι κ α)}
    (ho : ∀ p ∈ ps.reverse ++ hist, Owned owner p)
    (hcov : Covered hist) (hpay : Payable ps (tableAfter hist))
    (hids : (hist.map Posting.id).Nodup) (hps : (ps.map Posting.id).Nodup)
    (hsame : ∀ q ∈ ps, ∀ p ∈ hist, p.id = q.id → ∃ k ∈ q.spends, k ∈ p.spends) :
    ((ps.reverse ++ hist).map Posting.id).Nodup := by
  induction ps generalizing hist with
  | nil => exact hids
  | cons q ps ih =>
    obtain ⟨hq, hps'⟩ := List.nodup_cons.mp hps
    rw [List.reverse_cons, List.append_assoc] at ho ⊢
    have hohist : ∀ p ∈ hist, Owned owner p := fun p hp => ho p (by simp [hp])
    have hfresh : q.id ∉ hist.map Posting.id := by
      refine id_fresh hohist ⟨hpay.1, hcov⟩ hids fun p hp hid => ?_
      exact hsame q List.mem_cons_self p hp hid
    refine @ih (q :: hist) ho ⟨hpay.1, hcov⟩ hpay.2 (List.nodup_cons.mpr ⟨hfresh, hids⟩) hps' ?_
    intro q' hq' p hp hid
    rcases List.mem_cons.mp hp with rfl | hp
    · exact absurd (hid ▸ List.mem_map_of_mem hq') hq
    · exact hsame q' (List.mem_cons_of_mem q hq') p hp hid

/-- A posting with a new name creates keys that are not there. -/
theorem creates_fresh {q : Posting ι κ α} {ps : List (Posting ι κ α)}
    (ho : ∀ p ∈ ps, Owned owner p) (hq : Owned owner q) (hid : q.id ∉ ps.map Posting.id) {k : κ}
    (hk : k ∈ q.creates.map Prod.fst) : (tableAfter ps).lookup k = none := by
  by_contra hthere
  have howner := owner_mem ho hthere
  rw [hq k hk] at howner
  exact hid howner

end Ownership

end Toolkit
