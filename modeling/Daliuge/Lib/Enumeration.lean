import Mathlib.Data.List.Nodup
import Mathlib.Data.List.Forall2
import Mathlib.Algebra.BigOperators.Group.List.Basic
import Mathlib.Data.List.GetD

/-!
# Enumerating index tuples

The tuples below a list of bounds, in lexicographic order, and lists cut into pieces of one
size. A longer list of bounds refines a shorter one: each tuple of the shorter list starts one
piece of the longer one.
-/
namespace Enumeration

variable {α β : Type*}

/-- All index tuples below the bounds, the last index running fastest. -/
def paths : List Nat → List (List Nat)
  | [] => [[]]
  | d :: ds => (List.range d).flatMap fun i => (paths ds).map (i :: ·)

/-- Successive pieces of `n` elements; `fuel` bounds their number. -/
def chunks (n : Nat) : Nat → List α → List (List α)
  | 0, _ => []
  | _, [] => []
  | fuel + 1, ls => ls.take n :: chunks n fuel (ls.drop n)

variable {ds es p q : List Nat} {n fuel : Nat} {l : List β} {f : β → List α}

theorem paths_nil : paths [] = [[]] := rfl

theorem paths_cons {d : Nat} :
    paths (d :: ds) = (List.range d).flatMap fun i => (paths ds).map (i :: ·) := rfl

theorem mem_paths : p ∈ paths ds ↔ List.Forall₂ (· < ·) p ds := by
  induction ds generalizing p with
  | nil => cases p <;> simp [paths_nil]
  | cons d ds ih =>
    cases p with
    | nil => simp [paths_cons]
    | cons i p => simp [paths_cons, ih]

theorem length_of_mem_paths (h : p ∈ paths ds) : p.length = ds.length := by
  rw [mem_paths] at h
  exact h.length_eq

@[simp] theorem length_paths : (paths ds).length = ds.prod := by
  induction ds with
  | nil => rfl
  | cons d ds ih => simp [paths_cons, List.length_flatMap, ih]

theorem nodup_paths : (paths ds).Nodup := by
  induction ds with
  | nil => simp [paths_nil]
  | cons d ds ih =>
    refine List.nodup_flatMap.mpr ⟨fun i _ => ih.map fun _ _ h => by simpa using h, ?_⟩
    refine (List.nodup_range (n := d)).imp fun hij => ?_
    intro p hp hq
    obtain ⟨_, -, rfl⟩ := List.mem_map.mp hp
    obtain ⟨_, -, h⟩ := List.mem_map.mp hq
    exact hij (by simpa using h.symm |> fun h => (List.cons.inj h).1)

theorem paths_append : paths (ds ++ es) = (paths ds).flatMap fun p => (paths es).map (p ++ ·) := by
  induction ds with
  | nil => simp [paths_nil]
  | cons d ds ih =>
    simp [paths_cons, ih, List.flatMap_assoc, List.map_flatMap, List.flatMap_map, Function.comp_def]

theorem mem_paths_append : p ∈ paths (ds ++ es) ↔
    ∃ q ∈ paths ds, ∃ r ∈ paths es, p = q ++ r := by
  simp [paths_append, eq_comm]

/-- One index below each bound. -/
theorem map_mem_paths {f : Nat → Nat} (h : ∀ d ∈ ds, f d < d) : ds.map f ∈ paths ds := by
  rw [mem_paths, List.forall₂_map_left_iff, List.forall₂_same]
  exact h

theorem index_lt {k d : Nat} (hp : p ∈ paths ds) (hd : ds[k]? = some d) :
    ∃ i < d, p[k]? = some i := by
  obtain ⟨hk, rfl⟩ := List.getElem?_eq_some_iff.mp hd
  have hlen := length_of_mem_paths hp
  rw [mem_paths] at hp
  have hlt := hp.get (by omega) hk
  exact ⟨p[k], by simpa using hlt, List.getElem?_eq_getElem _⟩

theorem pos_of_mem_paths {d : Nat} (hp : p ∈ paths ds) (hd : d ∈ ds) : 0 < d := by
  obtain ⟨k, hk⟩ := List.getElem?_of_mem hd
  obtain ⟨i, hi, -⟩ := index_lt hp hk
  omega

/-- Where every bound is one there is one tuple. -/
theorem eq_zeros_of_mem_paths (h : ∀ d ∈ ds, d = 1) (hp : p ∈ paths ds) :
    p = ds.map fun _ => 0 := by
  refine List.ext_getElem? fun k => ?_
  rw [List.getElem?_map]
  cases hk : ds[k]? with
  | none =>
    have hlen := length_of_mem_paths hp
    exact List.getElem?_eq_none (by rw [hlen]; exact List.getElem?_eq_none_iff.mp hk)
  | some d =>
    obtain ⟨i, hi, hpk⟩ := index_lt hp hk
    obtain rfl := h d (List.mem_of_getElem? hk)
    obtain rfl : i = 0 := by omega
    exact hpk

/-- Where there is one tuple every bound is one. -/
theorem eq_one_of_subsingleton (h : ∀ p ∈ paths ds, ∀ q ∈ paths ds, p = q) (hp : p ∈ paths ds) :
    ∀ d ∈ ds, d = 1 := by
  intro d hd
  have hpos : ∀ d ∈ ds, 0 < d := fun d hd => pos_of_mem_paths hp hd
  have he := h (ds.map fun _ => 0) (map_mem_paths fun d hd => hpos d hd) (ds.map (· - 1))
    (map_mem_paths fun d hd => by have := hpos d hd; omega)
  have := List.map_eq_map_iff.mp he d hd
  have := hpos d hd
  omega

/-- Pieces of one size laid end to end are found again. -/
theorem chunks_flatMap (hn : 0 < n) (h : ∀ b ∈ l, (f b).length = n) (hf : l.length ≤ fuel) :
    chunks n fuel (l.flatMap f) = l.map f := by
  induction l generalizing fuel with
  | nil => cases fuel <;> rfl
  | cons b l ih =>
    obtain ⟨fuel, rfl⟩ : ∃ k, fuel = k + 1 := ⟨fuel - 1, by simp at hf; omega⟩
    have hb : (f b).length = n := h b (by simp)
    have hne : f b ++ l.flatMap f ≠ [] := by
      intro he
      simp at he
      simp [he.1] at hb
      omega
    have hstep : chunks n (fuel + 1) (f b ++ l.flatMap f) =
        (f b ++ l.flatMap f).take n :: chunks n fuel ((f b ++ l.flatMap f).drop n) := by
      cases hc : f b ++ l.flatMap f with
      | nil => exact absurd hc hne
      | cons x xs => rfl
    rw [List.flatMap_cons, hstep, List.take_left' hb, List.drop_left' hb,
      ih (fun c hc => h c (by simp [hc])) (by simp at hf; omega)]
    rfl

/-- Where an element stands when pieces of one size are laid end to end. -/
theorem getElem?_flatMap (h : ∀ b ∈ l, (f b).length = n) {i j : Nat} (hj : j < n) {b : β}
    (hb : l[i]? = some b) : (l.flatMap f)[i * n + j]? = (f b)[j]? := by
  induction l generalizing i with
  | nil => simp at hb
  | cons c l ih =>
    have hc : (f c).length = n := h c (by simp)
    rw [List.flatMap_cons]
    cases i with
    | zero =>
      obtain rfl : c = b := by simpa using hb
      rw [List.getElem?_append_left (by omega)]
      congr 1
      omega
    | succ i =>
      rw [List.getElem?_append_right (by rw [Nat.add_mul]; omega),
        ← ih (fun d hd => h d (by simp [hd])) (by simpa using hb)]
      congr 1
      rw [Nat.add_mul]
      omega

theorem paths_snoc {d : Nat} :
    paths (ds ++ [d]) = (paths ds).flatMap fun p => (List.range d).map fun i => p ++ [i] := by
  rw [paths_append]
  refine List.flatMap_congr fun p _ => ?_
  simp only [paths_cons, paths_nil, List.map_singleton, List.map_flatMap]
  simp [List.map_eq_flatMap]

theorem mem_paths_snoc {d : Nat} :
    p ∈ paths (ds ++ [d]) ↔ ∃ q ∈ paths ds, ∃ i < d, p = q ++ [i] := by
  simp [paths_snoc, eq_comm]

theorem getElem?_paths_snoc {d i j : Nat} (hj : j < d) (hp : (paths ds)[i]? = some p) :
    (paths (ds ++ [d]))[i * d + j]? = some (p ++ [j]) := by
  rw [paths_snoc, getElem?_flatMap (fun p _ => by simp) hj hp]
  simp [hj]

/-- The last index is the position modulo its bound. -/
theorem getLast?_of_paths_snoc {d i : Nat} (h : (paths (ds ++ [d]))[i]? = some p) :
    p.getLast? = some (i % d) := by
  obtain ⟨hi, -⟩ := List.getElem?_eq_some_iff.mp h
  rw [length_paths, List.prod_append, List.prod_singleton] at hi
  have hd : 0 < d := Nat.pos_of_ne_zero fun h0 => by simp [h0] at hi
  have hlt : i / d < (paths ds).length := by
    rw [length_paths]
    exact Nat.div_lt_of_lt_mul (by rwa [Nat.mul_comm])
  have hat := getElem?_paths_snoc (Nat.mod_lt i hd) (List.getElem?_eq_getElem hlt)
  rw [Nat.div_add_mod' i d, h] at hat
  rw [Option.some.inj hat]
  simp

/-- The enumeration is in lexicographic order. -/
theorem pairwise_lt_paths : (paths ds).Pairwise (· < ·) := by
  induction ds with
  | nil => simp [paths_nil]
  | cons d ds ih =>
    refine List.pairwise_flatMap.mpr ⟨fun i _ => ?_, ?_⟩
    · rw [List.pairwise_map]
      exact ih.imp fun h => List.cons_lt_cons_iff.mpr (Or.inr ⟨rfl, h⟩)
    · refine List.pairwise_lt_range.imp fun hij p hp q hq => ?_
      obtain ⟨_, -, rfl⟩ := List.mem_map.mp hp
      obtain ⟨_, -, rfl⟩ := List.mem_map.mp hq
      exact List.cons_lt_cons_iff.mpr (Or.inl hij)

theorem reverse_mem_paths : p.reverse ∈ paths ds.reverse ↔ p ∈ paths ds := by
  rw [mem_paths, mem_paths, List.forall₂_reverse_iff]

theorem paths_eq_nil_iff : paths ds = [] ↔ 0 ∈ ds := by
  constructor
  · intro h
    by_contra h0
    have hmem : (ds.map fun _ => 0) ∈ paths ds := map_mem_paths fun d hd =>
      Nat.pos_of_ne_zero fun he => h0 (he ▸ hd)
    rw [h] at hmem
    cases hmem
  · intro h
    refine List.eq_nil_iff_forall_not_mem.mpr fun p hp => ?_
    exact absurd (pos_of_mem_paths hp h) (by omega)

/-- Some of the indices of a tuple range over the tuples below their bounds. -/
theorem mem_paths_select {cs : List Nat} (hcs : cs.Nodup) (hlt : ∀ c ∈ cs, c < ds.length)
    (hpos : ∀ d ∈ ds, 0 < d) : q ∈ paths (cs.map fun c => ds.getD c 0) ↔
      ∃ p ∈ paths ds, cs.map (fun c => p.getD c 0) = q := by
  constructor
  · intro hq
    have hlen := length_of_mem_paths hq
    rw [List.length_map] at hlen
    -- the other indices are 0
    refine ⟨(List.range ds.length).map fun c => q.getD (cs.idxOf c) 0, ?_, ?_⟩
    · rw [mem_paths, List.forall₂_iff_get]
      refine ⟨by simp, fun k hk hd => ?_⟩
      simp only [List.get_eq_getElem, List.getElem_map, List.getElem_range]
      by_cases hm : k ∈ cs
      · have hidx := List.idxOf_lt_length_of_mem hm
        obtain ⟨i, hi, hqi⟩ := index_lt hq (k := cs.idxOf k) (d := ds.getD k 0) (by
          rw [List.getElem?_map, List.getElem?_idxOf hm]
          rfl)
        rw [List.getD_eq_getElem?_getD, hqi]
        rwa [List.getD_eq_getElem _ _ hd] at hi
      · rw [List.idxOf_eq_length_iff.mpr hm, List.getD_eq_default _ _ (by omega)]
        exact hpos _ (List.getElem_mem hd)
    · refine List.ext_getElem (by simp [hlen]) fun k hk hq' => ?_
      rw [List.length_map] at hk
      have hlt' := hlt _ (List.getElem_mem hk)
      simp only [List.getElem_map]
      rw [List.getD_eq_getElem _ _ (by simpa using hlt'), List.getElem_map, List.getElem_range,
        hcs.idxOf_getElem, List.getD_eq_getElem _ _ hq']
  · rintro ⟨p, hp, rfl⟩
    rw [mem_paths, List.forall₂_map_left_iff, List.forall₂_map_right_iff, List.forall₂_same]
    intro c hc
    have hd := hlt c hc
    obtain ⟨i, hi, hpc⟩ := index_lt hp (List.getElem?_eq_getElem hd)
    rw [List.getD_eq_getElem?_getD, hpc, List.getD_eq_getElem _ _ hd]
    exact hi

theorem paths_singleton {d : Nat} : paths [d] = (List.range d).map fun i => [i] := by
  rw [← List.nil_append [d], paths_snoc]
  simp [paths_nil]

theorem paths_of_ones (h : ∀ d ∈ ds, d = 1) : paths ds = [ds.map fun _ => 0] := by
  have hmem : (ds.map fun _ => 0) ∈ paths ds := map_mem_paths fun d hd => by rw [h d hd]; omega
  have hlen : (paths ds).length = 1 := by
    refine Nat.le_antisymm ?_ (List.length_pos_of_mem hmem)
    have hsub : paths ds ⊆ [ds.map fun _ => 0] := fun p hp =>
      List.mem_singleton.mpr (eq_zeros_of_mem_paths h hp)
    exact (List.subperm_of_subset nodup_paths hsub).length_le
  obtain ⟨p, hp⟩ := List.length_eq_one_iff.mp hlen
  rw [hp] at hmem ⊢
  rw [List.mem_singleton.mp hmem]

theorem ones_of_prod (h : ds.prod = 1) : ∀ d ∈ ds, d = 1 := by
  have hlen : (paths ds).length = 1 := length_paths.trans h
  obtain ⟨p, hp⟩ := List.length_eq_one_iff.mp hlen
  refine eq_one_of_subsingleton (p := p) (fun q hq r hr => ?_) (hp ▸ List.mem_singleton_self p)
  rw [hp, List.mem_singleton] at hq hr
  rw [hq, hr]

theorem mem_of_mem_chunks {l c : List α} {a : α} (hc : c ∈ chunks n fuel l) (ha : a ∈ c) :
    a ∈ l := by
  induction fuel generalizing l with
  | zero => simp [chunks] at hc
  | succ fuel ih =>
    cases l with
    | nil => simp [chunks] at hc
    | cons x l =>
      rcases List.mem_cons.mp hc with rfl | hc
      · exact List.mem_of_mem_take ha
      · exact List.mem_of_mem_drop (ih hc)

end Enumeration
