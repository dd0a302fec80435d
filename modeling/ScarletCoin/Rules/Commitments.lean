import ScarletCoin.Core.AuxPow

/-!
# Merged-mining markers

`parse_auxpow_commitment` reads what follows each marker in the data field of a parent coinbase. The
search skips the bytes of a marker that it found, and still finds every occurrence, because a marker
does not overlap itself (`afterMarkers_eq`). So a field with one marker and a complete commitment
behind it carries that commitment (`parseAuxpowCommitment_eq_ok`). An occurrence without a complete
commitment behind it is passed over, where the documentation asks for an error; the parser does what
is documented exactly on the fields without such an occurrence and on those with two complete ones
(`parseAuxpowCommitment_documented_iff`).
-/

set_option autoImplicit false

namespace ScarletCoin

open Toolkit

/-- The marker stands at position `i`. -/
def Marked (data : Bytes) (i : Nat) : Prop := MERGED_MINING_HEADER <+: data.drop i

/-- The marker stands at one position at most. -/
def OneMarker (data : Bytes) : Prop := ∀ i j, Marked data i → Marked data j → i = j

theorem marked_succ {b : UInt8} {data : Bytes} {i : Nat} :
    Marked (b :: data) (i + 1) ↔ Marked data i := Iff.rfl

theorem marked_append (pre post : Bytes) :
    Marked (pre ++ (MERGED_MINING_HEADER ++ post)) pre.length := by
  unfold Marked
  rw [List.drop_left]
  exact List.prefix_append _ _

/-- The positions of the marker, in order. -/
def positions : Bytes → List Nat
  | [] => []
  | b :: rest =>
      (if MERGED_MINING_HEADER.isPrefixOf (b :: rest) then [0] else []) ++
        (positions rest).map (· + 1)

theorem mem_positions {data : Bytes} {i : Nat} : i ∈ positions data ↔ Marked data i := by
  induction data generalizing i with
  | nil =>
    have hnone : ¬ Marked [] i := by
      intro h
      rw [Marked, List.drop_nil, List.prefix_nil] at h
      cases h
    exact ⟨fun h => (List.not_mem_nil h).elim, fun h => (hnone h).elim⟩
  | cons b rest ih =>
    rw [positions, List.mem_append, List.mem_map]
    cases i with
    | zero =>
      have hshift : ¬ ∃ j ∈ positions rest, j + 1 = 0 := by
        rintro ⟨j, -, hj⟩
        omega
      rw [or_iff_left hshift]
      show _ ↔ MERGED_MINING_HEADER <+: b :: rest
      rw [← List.isPrefixOf_iff_prefix]
      split <;> simp_all
    | succ i =>
      have hhead : i + 1 ∉ if MERGED_MINING_HEADER.isPrefixOf (b :: rest) then [0] else [] := by
        split <;> simp
      rw [or_iff_right hhead, marked_succ, ← ih]
      constructor
      · rintro ⟨j, hj, heq⟩
        exact Nat.succ.inj heq ▸ hj
      · exact fun h => ⟨i, h, rfl⟩

theorem positions_nodup (data : Bytes) : (positions data).Nodup := by
  induction data with
  | nil => exact List.nodup_nil
  | cons b rest ih =>
    rw [positions, List.nodup_append]
    refine ⟨by split <;> simp, ih.map (fun _ _ h => Nat.succ.inj h), ?_⟩
    intro x hx y hy
    obtain ⟨j, -, rfl⟩ := List.mem_map.mp hy
    split at hx
    · rw [List.mem_singleton.mp hx]
      exact (Nat.succ_ne_zero j).symm
    · cases hx

/-- A marker that is the only one is the only position. -/
theorem positions_eq_singleton {data : Bytes} {i : Nat} :
    positions data = [i] ↔ ∀ j, Marked data j ↔ j = i := by
  constructor
  · intro h j
    rw [← mem_positions, h, List.mem_singleton]
  · intro h
    refine List.perm_singleton.mp ?_
    rw [List.perm_ext_iff_of_nodup (positions_nodup data) (List.nodup_singleton _)]
    intro j
    rw [mem_positions, List.mem_singleton, h]

/-- No marker starts inside a marker. -/
theorem not_marked_inside {b : UInt8} {rest : Bytes} (h : Marked (b :: rest) 0) :
    ∀ i < 3, ¬ Marked rest i := by
  obtain ⟨post, hpost⟩ := h
  obtain ⟨-, rfl⟩ := List.cons.inj hpost
  intro i hi hmarked
  obtain ⟨post', hpost'⟩ := hmarked
  interval_cases i <;> cases hpost'

/-- The search finds the bytes after every occurrence of the marker. -/
theorem afterMarkers_eq {skip : Nat} {data : Bytes} (h : ∀ i < skip, ¬ Marked data i) :
    afterMarkers skip data = (positions data).map fun i => data.drop (i + 4) := by
  induction data generalizing skip with
  | nil => cases skip <;> rfl
  | cons b rest ih =>
    have hmap : ((positions rest).map (· + 1)).map (fun i => (b :: rest).drop (i + 4)) =
        (positions rest).map fun i => rest.drop (i + 4) := by
      rw [List.map_map]
      rfl
    cases skip with
    | succ skip =>
      have hhead : MERGED_MINING_HEADER.isPrefixOf (b :: rest) = false := by
        rw [← Bool.not_eq_true, List.isPrefixOf_iff_prefix]
        exact h 0 (Nat.succ_pos skip)
      rw [positions, hhead, if_neg Bool.false_ne_true, List.nil_append, hmap]
      exact ih fun i hi => h (i + 1) (Nat.succ_lt_succ hi)
    | zero =>
      rw [positions, afterMarkers, List.map_append, hmap]
      split
      · rename_i hhere
        rw [ih (not_marked_inside (List.isPrefixOf_iff_prefix.mp hhere))]
        rfl
      · rw [ih fun i hi => absurd hi (Nat.not_lt_zero i)]
        rfl

/-- The commitment behind the marker at position `i`, if it is complete and well formed. -/
def commitmentAt (data : Bytes) (i : Nat) : Option AuxPoWCommitment :=
  readCommitment (data.drop (i + 4))

/-- The commitments behind the markers, in order. -/
def commitments (data : Bytes) : List AuxPoWCommitment :=
  (positions data).filterMap (commitmentAt data)

theorem mem_commitments {data : Bytes} {c : AuxPoWCommitment} :
    c ∈ commitments data ↔ ∃ i, Marked data i ∧ commitmentAt data i = some c := by
  simp only [commitments, List.mem_filterMap, mem_positions]

/-- The parser answers by the number of complete commitments. -/
theorem parseAuxpowCommitment_cases (data : Bytes) :
    (commitments data = [] ∧ parseAuxpowCommitment data = .ok none) ∨
    (∃ c, commitments data = [c] ∧ parseAuxpowCommitment data = .ok (some c)) ∨
    (2 ≤ (commitments data).length ∧
      ∃ message, parseAuxpowCommitment data = .error (.auxPoW message)) := by
  have hread : (afterMarkers 0 data).filterMap readCommitment = commitments data := by
    rw [afterMarkers_eq fun i hi => absurd hi (Nat.not_lt_zero i), List.filterMap_map]
    rfl
  unfold parseAuxpowCommitment
  rw [hread]
  rcases commitments data with _ | ⟨c, _ | ⟨c', rest⟩⟩
  · exact .inl ⟨rfl, rfl⟩
  · exact .inr (.inl ⟨c, rfl, rfl⟩)
  · exact .inr (.inr ⟨by simp, _, rfl⟩)

theorem parseAuxpowCommitment_eq_none {data : Bytes} :
    parseAuxpowCommitment data = .ok none ↔ commitments data = [] := by
  rcases parseAuxpowCommitment_cases data with ⟨hc, hp⟩ | ⟨c, hc, hp⟩ | ⟨hlen, m, hp⟩
  · simp [hc, hp]
  · simp [hc, hp]
  · rw [hp]
    refine ⟨fun h => (by cases h), fun h => ?_⟩
    rw [h] at hlen
    exact absurd hlen (by decide)

theorem parseAuxpowCommitment_eq_some {data : Bytes} {c : AuxPoWCommitment} :
    parseAuxpowCommitment data = .ok (some c) ↔ commitments data = [c] := by
  rcases parseAuxpowCommitment_cases data with ⟨hc, hp⟩ | ⟨c, hc, hp⟩ | ⟨hlen, m, hp⟩
  · simp [hc, hp]
  · simp [hc, hp]
  · rw [hp]
    refine ⟨fun h => (by cases h), fun h => ?_⟩
    rw [h, List.length_singleton] at hlen
    exact absurd hlen (by decide)

theorem parseAuxpowCommitment_eq_error {data : Bytes} :
    (∃ e, parseAuxpowCommitment data = .error e) ↔ 2 ≤ (commitments data).length := by
  rcases parseAuxpowCommitment_cases data with ⟨hc, hp⟩ | ⟨c, hc, hp⟩ | ⟨hlen, m, hp⟩
  · simp [hc, hp]
  · simp [hc, hp]
  · exact ⟨fun _ => hlen, fun _ => ⟨_, hp⟩⟩

/-- The bytes of a commitment, without the marker. -/
def AuxPoWCommitment.serialize (c : AuxPoWCommitment) : Bytes :=
  c.auxRoot.val ++ (leBytes 4 c.treeSize ++ leBytes 4 c.nonce)

/-- A commitment whose numbers fit their fields is read from its bytes. -/
theorem readCommitment_serialize {c : AuxPoWCommitment} (rest : Bytes)
    (hsize : 1 ≤ c.treeSize ∧ c.treeSize < 2 ^ 32) (hnonce : c.nonce < 2 ^ 32) :
    readCommitment (c.serialize ++ rest) = some c := by
  have hroot := c.auxRoot.property
  have hlen : c.serialize.length = 40 := by simp [AuxPoWCommitment.serialize, hroot]
  have htake : (c.serialize ++ rest).take 32 = c.auxRoot.val := by
    rw [AuxPoWCommitment.serialize, List.append_assoc, List.take_left' hroot]
  have hdrop : (c.serialize ++ rest).drop 32 =
      leBytes 4 c.treeSize ++ (leBytes 4 c.nonce ++ rest) := by
    rw [AuxPoWCommitment.serialize, List.append_assoc, List.append_assoc, List.drop_left' hroot]
  have htree : leNat (((c.serialize ++ rest).drop 32).take 4) = c.treeSize := by
    rw [hdrop, List.take_left' (leBytes_length _ _)]
    exact leNat_leBytes_of_lt hsize.2
  have hread : leNat (((c.serialize ++ rest).drop 36).take 4) = c.nonce := by
    rw [show 36 = 32 + 4 from rfl, ← List.drop_drop, hdrop, List.drop_left' (leBytes_length _ _),
      List.take_left' (leBytes_length _ _)]
    exact leNat_leBytes_of_lt hnonce
  unfold readCommitment
  rw [if_neg (by rw [List.length_append, hlen]; omega)]
  simp only [htree, hread, htake, hroot, dite_true, if_neg (Nat.not_lt.mpr hsize.1)]

/-- A field with one marker and a complete commitment behind it carries that commitment. -/
theorem parseAuxpowCommitment_eq_ok {pre rest : Bytes} {c : AuxPoWCommitment}
    (h : OneMarker (pre ++ (MERGED_MINING_HEADER ++ (c.serialize ++ rest))))
    (hsize : 1 ≤ c.treeSize ∧ c.treeSize < 2 ^ 32) (hnonce : c.nonce < 2 ^ 32) :
    parseAuxpowCommitment (pre ++ (MERGED_MINING_HEADER ++ (c.serialize ++ rest))) =
      .ok (some c) := by
  generalize hdata : pre ++ (MERGED_MINING_HEADER ++ (c.serialize ++ rest)) = data at h ⊢
  have hmarked : Marked data pre.length := hdata ▸ marked_append pre _
  have hat : commitmentAt data pre.length = some c := by
    have hdrop : data.drop (pre.length + 4) = c.serialize ++ rest := by
      rw [← hdata, ← List.append_assoc]
      exact List.drop_left' (by rw [List.length_append]; rfl)
    rw [commitmentAt, hdrop, readCommitment_serialize rest hsize hnonce]
  have hpositions : positions data = [pre.length] :=
    positions_eq_singleton.mpr fun i => ⟨fun hi => h _ _ hi hmarked, fun hi => hi ▸ hmarked⟩
  rw [parseAuxpowCommitment_eq_some, commitments, hpositions, List.filterMap_cons, hat]
  rfl

/-! ## What is documented -/

/-- What the documentation asks of the parser: a commitment exactly for one marker with a complete
commitment behind it, nothing only without a marker, and an error for a second marker or for one
without a complete commitment behind it. -/
structure Documented (data : Bytes) : Prop where
  commitment : ∀ c, parseAuxpowCommitment data = .ok (some c) ↔
    ∃ i, (∀ j, Marked data j ↔ j = i) ∧ commitmentAt data i = some c
  nothing : parseAuxpowCommitment data = .ok none → ∀ i, ¬ Marked data i
  several : ∀ i j, Marked data i → Marked data j → i ≠ j →
    ∃ e, parseAuxpowCommitment data = .error e
  malformed : ∀ i, Marked data i → commitmentAt data i = none →
    ∃ e, parseAuxpowCommitment data = .error e

/-- Two markers with complete commitments behind them. -/
def TwoComplete (data : Bytes) : Prop :=
  ∃ i j, i ≠ j ∧ Marked data i ∧ Marked data j ∧
    (commitmentAt data i).isSome = true ∧ (commitmentAt data j).isSome = true

theorem two_le_filterMap {α β : Type} {f : α → Option β} {xs : List α} (hnodup : xs.Nodup) :
    2 ≤ (xs.filterMap f).length ↔
      ∃ x y, x ≠ y ∧ x ∈ xs ∧ y ∈ xs ∧ (f x).isSome = true ∧ (f y).isSome = true := by
  rw [List.length_filterMap_eq_countP, List.countP_eq_length_filter]
  have hmem : ∀ x, x ∈ xs.filter (fun x => (f x).isSome) ↔ x ∈ xs ∧ (f x).isSome = true :=
    fun x => List.mem_filter
  have hkept := hnodup.filter fun x => (f x).isSome
  generalize xs.filter (fun x => (f x).isSome) = kept at hmem hkept ⊢
  constructor
  · intro hlen
    match kept, hlen with
    | x :: y :: rest, _ =>
      have hne : x ≠ y := fun h => (List.nodup_cons.mp hkept).1 (h ▸ List.mem_cons_self)
      obtain ⟨hx, hfx⟩ := (hmem x).mp List.mem_cons_self
      obtain ⟨hy, hfy⟩ := (hmem y).mp (List.mem_cons_of_mem x List.mem_cons_self)
      exact ⟨x, y, hne, hx, hy, hfx, hfy⟩
  · rintro ⟨x, y, hne, hx, hy, hfx, hfy⟩
    have hx' := (hmem x).mpr ⟨hx, hfx⟩
    have hy' := (hmem y).mpr ⟨hy, hfy⟩
    match kept, hx', hy' with
    | [z], hx', hy' =>
      exact absurd ((List.mem_singleton.mp hx').trans (List.mem_singleton.mp hy').symm) hne
    | _ :: _ :: rest, _, _ => exact Nat.le_add_left 2 rest.length

theorem two_le_commitments {data : Bytes} :
    2 ≤ (commitments data).length ↔ TwoComplete data := by
  rw [commitments, two_le_filterMap (positions_nodup data)]
  simp only [mem_positions, TwoComplete]

/-- Without a malformed occurrence there are as many commitments as markers. -/
theorem commitments_length {data : Bytes}
    (hall : ∀ i, Marked data i → (commitmentAt data i).isSome = true) :
    (commitments data).length = (positions data).length := by
  rw [commitments, List.length_filterMap_eq_countP, List.countP_eq_length]
  exact fun i hi => hall i (mem_positions.mp hi)

/-- Without a malformed occurrence the parser does what is documented. -/
theorem documented_of_complete {data : Bytes}
    (hall : ∀ i, Marked data i → (commitmentAt data i).isSome = true) : Documented data := by
  have hlen := commitments_length hall
  refine ⟨fun c => ?_, fun h i hi => ?_, fun i j hi hj hne => ?_, fun i hi hbad => ?_⟩
  · rw [parseAuxpowCommitment_eq_some]
    constructor
    · intro h
      rw [h, List.length_singleton] at hlen
      obtain ⟨i, hpositions⟩ := List.length_eq_one_iff.mp hlen.symm
      refine ⟨i, positions_eq_singleton.mp hpositions, ?_⟩
      obtain ⟨j, hj, hat⟩ := mem_commitments.mp (h ▸ List.mem_singleton_self c)
      rwa [(positions_eq_singleton.mp hpositions j).mp hj] at hat
    · rintro ⟨i, honly, hat⟩
      rw [commitments, positions_eq_singleton.mpr honly, List.filterMap_cons, hat]
      rfl
  · rw [parseAuxpowCommitment_eq_none.mp h, List.length_nil] at hlen
    have hnil := List.length_eq_zero_iff.mp hlen.symm
    exact List.not_mem_nil (hnil ▸ mem_positions.mpr hi)
  · exact parseAuxpowCommitment_eq_error.mpr
      (two_le_commitments.mpr ⟨i, j, hne, hi, hj, hall i hi, hall j hj⟩)
  · have hgood := hall i hi
    rw [hbad] at hgood
    cases hgood

/-- The parser does what is documented iff every marker has a complete commitment behind it, or two
of them have. -/
theorem parseAuxpowCommitment_documented_iff (data : Bytes) :
    Documented data ↔
      (∀ i, Marked data i → (commitmentAt data i).isSome = true) ∨ TwoComplete data := by
  constructor
  · intro h
    by_cases hall : ∀ i, Marked data i → (commitmentAt data i).isSome = true
    · exact .inl hall
    · push Not at hall
      obtain ⟨i, hi, hbad⟩ := hall
      have herror := h.malformed i hi (by simpa using hbad)
      exact .inr (two_le_commitments.mp (parseAuxpowCommitment_eq_error.mp herror))
  · rintro (hall | htwo)
    · exact documented_of_complete hall
    · have herror := parseAuxpowCommitment_eq_error.mpr (two_le_commitments.mpr htwo)
      obtain ⟨e, he⟩ := herror
      obtain ⟨i, j, hne, hi, hj, -, -⟩ := htwo
      refine ⟨fun c => ⟨fun h => ?_, ?_⟩, fun h => ?_, fun _ _ _ _ _ => ⟨e, he⟩,
        fun _ _ _ => ⟨e, he⟩⟩
      · rw [he] at h
        cases h
      · rintro ⟨k, hk, -⟩
        exact absurd (((hk i).mp hi).trans ((hk j).mp hj).symm) hne
      · rw [he] at h
        cases h

/-- A truncated marker is passed over, alone or after a complete commitment. -/
theorem not_documented_truncated :
    ¬ Documented MERGED_MINING_HEADER ∧
      ¬ Documented (MERGED_MINING_HEADER ++ (AuxPoWCommitment.serialize ⟨nullHash, 1, 0⟩ ++
        MERGED_MINING_HEADER)) := by
  constructor
  · intro h
    exact h.nothing (by decide +kernel) 0 (mem_positions.mp (by decide +kernel))
  · intro h
    obtain ⟨e, he⟩ := h.several 0 44 (mem_positions.mp (by decide +kernel))
      (mem_positions.mp (by decide +kernel)) (by decide)
    have hok : parseAuxpowCommitment (MERGED_MINING_HEADER ++
        (AuxPoWCommitment.serialize ⟨nullHash, 1, 0⟩ ++ MERGED_MINING_HEADER)) =
          .ok (some ⟨nullHash, 1, 0⟩) := by
      decide +kernel
    rw [hok] at he
    cases he

end ScarletCoin
