import Mathlib.Data.List.Nodup

/-!
# Entries found by their first match

Lists whose entries are looked up by a key, where the first entry that has it counts, and changes
made to such entries one after the other.
-/
namespace FirstMatch

variable {α β κ : Type*} [DecidableEq κ] {id : α → κ} {g : β → α → α} {f : α → α} {l : List α}
  {cs : List (κ × β)} {a : α} {i : Nat} {key k : κ}

/-- Change the first entry that has the key. -/
def setFirst (id : α → κ) (key : κ) (f : α → α) (l : List α) : List α :=
  match l.findIdx? fun a => id a == key with
  | none => l
  | some i => l.modify i f

theorem findIdx?_eq_map (id : α → κ) (key : κ) (l : List α) :
    (l.findIdx? fun a => id a == key) = (l.map id).findIdx? (· == key) := by
  rw [List.findIdx?_map]
  rfl

theorem id_of_findIdx? (h : (l.findIdx? fun a => id a == key) = some i) (ha : l[i]? = some a) :
    id a = key := by
  obtain ⟨hi, hk, -⟩ := List.findIdx?_eq_some_iff_getElem.mp h
  obtain ⟨_, rfl⟩ := List.getElem?_eq_some_iff.mp ha
  simpa using hk

theorem findIdx?_isSome_iff : (l.findIdx? fun a => id a == key).isSome ↔ ∃ a ∈ l, id a = key := by
  simp [List.findIdx?_isSome]

theorem findIdx?_of_nodup (hn : (l.map id).Nodup) (ha : l[i]? = some a) :
    (l.findIdx? fun a' => id a' == id a) = some i := by
  obtain ⟨hi, rfl⟩ := List.getElem?_eq_some_iff.mp ha
  refine List.findIdx?_eq_some_iff_getElem.mpr ⟨hi, by simp, fun j hj => ?_⟩
  have hne := List.pairwise_iff_getElem.mp hn j i (by simp; omega) (by simpa using hi) hj
  simpa using hne

theorem getElem?_setFirst : (setFirst id key f l)[i]? =
    l[i]?.map fun a => if (l.findIdx? fun a => id a == key) = some i then f a else a := by
  unfold setFirst
  cases h : l.findIdx? fun a => id a == key with
  | none => simp
  | some j =>
    rw [List.getElem?_modify]
    by_cases hj : j = i
    · simp [hj]
    · simp [hj]

theorem map_setFirst (h : ∀ a, id (f a) = id a) : (setFirst id key f l).map id = l.map id := by
  refine List.ext_getElem? fun i => ?_
  rw [List.getElem?_map, List.getElem?_map, getElem?_setFirst]
  cases l[i]? with
  | none => rfl
  | some a =>
    simp only [Option.map_some]
    split
    · rw [h]
    · rfl

/-- What is found by a key, after the first entry with some key was changed. -/
theorem find?_setFirst (id : α → κ) (h : ∀ a, id (f a) = id a) :
    (setFirst id key f l).find? (fun a => id a == k) =
      (l.find? fun a => id a == k).map fun a => if k = key then f a else a := by
  have hidx : ((setFirst id key f l).findIdx? fun a => id a == k) =
      l.findIdx? fun a => id a == k := by
    rw [findIdx?_eq_map id, map_setFirst h, ← findIdx?_eq_map id]
  rw [List.find?_eq_bind_findIdx?_getElem?, List.find?_eq_bind_findIdx?_getElem?, hidx]
  cases hk : l.findIdx? fun a => id a == k with
  | none => rfl
  | some i =>
    rw [Option.bind_some, Option.bind_some, getElem?_setFirst]
    cases ha : l[i]? with
    | none => rfl
    | some a =>
      have hiff : (l.findIdx? fun a => id a == key) = some i ↔ k = key := by
        constructor
        · intro hi
          rw [← id_of_findIdx? hk ha, id_of_findIdx? hi ha]
        · rintro rfl
          exact hk
      simp only [Option.map_some, hiff]

/-- What is found by a key, after changes to different keys. -/
theorem find?_foldl_setFirst (id : α → κ) (hg : ∀ b a, id (g b a) = id a)
    (hn : (cs.map Prod.fst).Nodup) :
    (cs.foldl (fun l c => setFirst id c.1 (g c.2) l) l).find? (fun a => id a == k) =
      (l.find? fun a => id a == k).map fun a =>
        match cs.lookup k with | some b => g b a | none => a := by
  induction cs generalizing l with
  | nil => simp
  | cons c cs ih =>
    obtain ⟨key, b⟩ := c
    obtain ⟨hc, hn⟩ := List.nodup_cons.mp (show (key :: cs.map Prod.fst).Nodup from hn)
    rw [List.foldl_cons, ih hn, find?_setFirst id (hg b), Option.map_map]
    congr 1
    funext a
    by_cases hk : k = key
    · subst hk
      have hnone : cs.lookup k = none := by
        rw [List.lookup_eq_none_iff]
        intro p hp
        have hne : k ≠ p.1 := fun he => hc (List.mem_map.mpr ⟨p, hp, he.symm⟩)
        simpa using hne
      simp [hnone]
    · have hb : (k == key) = false := by simpa using hk
      simp [hk, List.lookup_cons, hb]

/-- Changes to different keys each reach the first entry of theirs. -/
theorem getElem?_foldl_setFirst (id : α → κ) (hg : ∀ b a, id (g b a) = id a)
    (hn : (cs.map Prod.fst).Nodup) :
    (cs.foldl (fun l c => setFirst id c.1 (g c.2) l) l)[i]? =
      l[i]?.map fun a => if (l.findIdx? fun a' => id a' == id a) = some i then
        (match cs.lookup (id a) with | some b => g b a | none => a) else a := by
  induction cs generalizing l with
  | nil => simp
  | cons c cs ih =>
    obtain ⟨key, b⟩ := c
    obtain ⟨hc, hn⟩ := List.nodup_cons.mp (show (key :: cs.map Prod.fst).Nodup from hn)
    rw [List.foldl_cons, ih hn, getElem?_setFirst, Option.map_map]
    have hsame : ∀ k, (List.findIdx? (fun a' => id a' == k) (setFirst id key (g b) l)) =
        l.findIdx? fun a' => id a' == k := by
      intro k
      rw [findIdx?_eq_map id, map_setFirst (hg b), ← findIdx?_eq_map id]
    cases ha : l[i]? with
    | none => rfl
    | some a =>
      simp only [Option.map_some, Function.comp_apply, hsame]
      congr 1
      by_cases hk : id a = key
      · have hnone : cs.lookup key = none := by
          rw [List.lookup_eq_none_iff]
          intro p hp
          have hne : key ≠ p.1 := fun he => hc (List.mem_map.mpr ⟨p, hp, he.symm⟩)
          simpa using hne
        by_cases hi : (l.findIdx? fun a => id a == key) = some i
        · simp [hk, hi, hg, hnone]
        · simp [hk, hi]
      · have hi : (l.findIdx? fun a => id a == key) ≠ some i := fun h => hk (id_of_findIdx? h ha)
        have hb : (id a == key) = false := by simpa using hk
        simp [hi, List.lookup_cons, hb]

end FirstMatch
