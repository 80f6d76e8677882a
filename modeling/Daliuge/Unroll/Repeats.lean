import Daliuge.Unroll.BothEnds
import Daliuge.Unroll.WriteOrder

/-!
# Relations that are recorded twice

A relation list is asked for the bare oid before an oid is added to it. An oid that stands there
under a port name is not recognised, and every further connection of the same two drops adds it
once more.
-/
namespace Daliuge.Unroll

/-- Each oid is at most once in each relation list of each drop. The list of ports, which has an
entry for each port, is none of them. -/
def Template.OncePerList (tpl : Template) : Prop :=
  ∀ d ∈ tpl.drops, ∀ key ≠ RelationKey.ports, ((tpl.relations.of d key).map Entry.oid).Nodup

/-- What a write adds to the lists of the two drops it joins. -/
def Write.tells (sessionId : String) : Write → List Addition
  | .relate e => e.additions
  | .bridge s t =>
    [⟨s.ident, .outputs, bridgeOid sessionId s.oid t.oid, some "stream", false⟩,
      ⟨t.ident, .streamingInputs, bridgeOid sessionId s.oid t.oid, some "stream", true⟩]

/-- The names under which an oid is added to one list of a drop, in order. -/
def namesAdded (as : List Addition) (i : Ident) (key : RelationKey) (oid : String) :
    List (Option String) :=
  (as.filter fun a => a.owner = i ∧ a.key = key ∧ a.oid = oid).map (·.name)

/-- Only an oid that comes without a name first may come again. -/
def PlainFirst : List (Option String) → Prop
  | [] => True
  | name :: names => isPlain name = true ∨ names = []

/-- Of the connections the links are wired to, no two tell a drop that stays of the same other
drop, in the same list, unless the first of them has no port name there. -/
def LogicalGraph.JoinsOnce (g : LogicalGraph) : Prop :=
  ∀ lg placed xs, g.built = .ok (lg, placed) → plan lg placed = .ok xs →
    ∀ p ∈ placed, (∀ n ∈ lg.graph.nodes, n.id = p.key → n.isPlaceholder = false) →
      ∀ key oid, PlainFirst (namesAdded (xs.flatMap (Write.tells g.sessionId)) p.drop.ident key oid)

/-! Adding an oid again and again. -/

section Counting

variable {m : Entries} {a : Addition} {as : List Addition} {i : Ident} {key : RelationKey}
  {oid : String}

/-- Whether an entry tells an oid in one list of a drop. -/
abbrev IsAt (i : Ident) (key : RelationKey) (oid : String) (x : Ident × RelationKey × Entry) :
    Prop := x.1 = i ∧ x.2.1 = key ∧ x.2.2.oid = oid

theorem count_apply_at (hk : a.key ≠ .ports) :
    (Addition.apply m a).countP (IsAt a.owner a.key a.oid) =
      if a.plain ∈ m then m.countP (IsAt a.owner a.key a.oid)
      else m.countP (IsAt a.owner a.key a.oid) + 1 := by
  have hport : ¬IsAt a.owner a.key a.oid a.port := fun h => hk h.2.1.symm
  have hentry : IsAt a.owner a.key a.oid a.entry := ⟨rfl, rfl, oid_entry⟩
  rw [Addition.apply, Multiset.countP_cons_of_neg _ hport]
  split
  · rfl
  · exact Multiset.countP_cons_of_pos _ hentry

theorem count_apply_other (hk : key ≠ .ports)
    (h : ¬(a.owner = i ∧ a.key = key ∧ a.oid = oid)) :
    (Addition.apply m a).countP (IsAt i key oid) = m.countP (IsAt i key oid) := by
  have hport : ¬IsAt i key oid a.port := fun h => hk h.2.1.symm
  have hentry : ¬IsAt i key oid a.entry := by
    rintro ⟨ho, hkey, hoid⟩
    exact h ⟨ho, hkey, oid_entry.symm.trans hoid⟩
  rw [Addition.apply, Multiset.countP_cons_of_neg _ hport]
  split
  · rfl
  · exact Multiset.countP_cons_of_neg _ hentry

theorem namesAdded_cons_other (h : ¬(a.owner = i ∧ a.key = key ∧ a.oid = oid)) :
    namesAdded (a :: as) i key oid = namesAdded as i key oid := by
  rw [namesAdded, List.filter_cons_of_neg (by simpa using h)]
  rfl

theorem namesAdded_cons_at :
    namesAdded (a :: as) a.owner a.key a.oid = a.name :: namesAdded as a.owner a.key a.oid := by
  rw [namesAdded, List.filter_cons_of_pos (by simp)]
  rfl

theorem namesAdded_append {bs : List Addition} :
    namesAdded (as ++ bs) i key oid = namesAdded as i key oid ++ namesAdded bs i key oid := by
  simp [namesAdded]

theorem namesAdded_eq_nil :
    namesAdded as i key oid = [] ↔ ∀ a ∈ as, ¬(a.owner = i ∧ a.key = key ∧ a.oid = oid) := by
  simp [namesAdded]

theorem plain_stays (h : (i, key, Entry.plain oid) ∈ m) :
    (i, key, Entry.plain oid) ∈ Addition.apply m a := by
  rw [Addition.apply]
  split
  · exact Multiset.mem_cons_of_mem h
  · exact Multiset.mem_cons_of_mem (Multiset.mem_cons_of_mem h)

theorem count_le_foldl (hk : key ≠ .ports) :
    m.countP (IsAt i key oid) ≤ (as.foldl Addition.apply m).countP (IsAt i key oid) := by
  induction as generalizing m with
  | nil => exact le_refl _
  | cons a as ih =>
    refine le_trans ?_ ih
    by_cases h : a.owner = i ∧ a.key = key ∧ a.oid = oid
    · obtain ⟨rfl, rfl, rfl⟩ := h
      rw [count_apply_at hk]
      split <;> omega
    · rw [count_apply_other hk h]

/-- A bare oid keeps all others out. -/
theorem count_of_plain (hk : key ≠ .ports) (h : (i, key, Entry.plain oid) ∈ m) :
    (as.foldl Addition.apply m).countP (IsAt i key oid) = m.countP (IsAt i key oid) := by
  induction as generalizing m with
  | nil => rfl
  | cons a as ih =>
    rw [List.foldl_cons, ih (plain_stays h)]
    by_cases ha : a.owner = i ∧ a.key = key ∧ a.oid = oid
    · obtain ⟨rfl, rfl, rfl⟩ := ha
      have h : a.plain ∈ m := h
      rw [count_apply_at hk, if_pos h]
    · exact count_apply_other hk ha

theorem count_of_none (hk : key ≠ .ports) (h : namesAdded as i key oid = []) :
    (as.foldl Addition.apply m).countP (IsAt i key oid) = m.countP (IsAt i key oid) := by
  induction as generalizing m with
  | nil => rfl
  | cons a as ih =>
    have ha := namesAdded_eq_nil.mp h a List.mem_cons_self
    rw [namesAdded_cons_other ha] at h
    rw [List.foldl_cons, ih h, count_apply_other hk ha]

/-- An oid that stands there under a name is added by the next addition. -/
theorem count_of_named (hk : key ≠ .ports) (hp : (i, key, Entry.plain oid) ∉ m)
    (h : namesAdded as i key oid ≠ []) :
    m.countP (IsAt i key oid) < (as.foldl Addition.apply m).countP (IsAt i key oid) := by
  induction as generalizing m with
  | nil => exact absurd rfl h
  | cons a as ih =>
    rw [List.foldl_cons]
    by_cases ha : a.owner = i ∧ a.key = key ∧ a.oid = oid
    · obtain ⟨rfl, rfl, rfl⟩ := ha
      refine Nat.lt_of_lt_of_le ?_ (count_le_foldl hk)
      have hp : a.plain ∉ m := hp
      rw [count_apply_at hk, if_neg hp]
      exact Nat.lt_succ_self _
    · rw [namesAdded_cons_other ha] at h
      have hp' : (i, key, Entry.plain oid) ∉ Addition.apply m a := by
        intro hmem
        have hmem := (Addition.plain_mem_apply (b := ⟨i, key, oid, none, false⟩)).mp hmem
        rcases hmem with hmem | ⟨-, he⟩
        · exact hp hmem
        · obtain ⟨ho, hkey, hoid, -⟩ := Addition.entry_eq_plain.mp he
          exact ha ⟨ho, hkey, hoid⟩
      have hlt := ih hp' h
      rwa [count_apply_other hk ha] at hlt

/-- How often an oid ends up in a list where it has not been. -/
theorem count_le_one_iff (hk : key ≠ .ports) (h : m.countP (IsAt i key oid) = 0) :
    (as.foldl Addition.apply m).countP (IsAt i key oid) ≤ 1 ↔
      PlainFirst (namesAdded as i key oid) := by
  induction as generalizing m with
  | nil => simp [namesAdded, PlainFirst, h]
  | cons a as ih =>
    rw [List.foldl_cons]
    by_cases ha : a.owner = i ∧ a.key = key ∧ a.oid = oid
    · obtain ⟨rfl, rfl, rfl⟩ := ha
      have hp : a.plain ∉ m := by
        intro hmem
        exact Multiset.countP_eq_zero.mp h _ hmem ⟨rfl, rfl, rfl⟩
      have hone : (Addition.apply m a).countP (IsAt a.owner a.key a.oid) = 1 := by
        rw [count_apply_at hk, if_neg hp, h]
      rw [namesAdded_cons_at, PlainFirst]
      by_cases hname : isPlain a.name = true
      · have hmem : a.plain ∈ Addition.apply m a := Addition.plain_mem_apply.mpr
          (Or.inr ⟨hp, Addition.entry_eq_plain.mpr ⟨rfl, rfl, rfl, hname⟩⟩)
        have hcount : (as.foldl Addition.apply (Addition.apply m a)).countP _ = _ :=
          count_of_plain hk hmem
        rw [hcount, hone]
        simp [hname]
      · have hmem : a.plain ∉ Addition.apply m a := by
          rw [Addition.plain_mem_apply]
          rintro (hmem | ⟨-, he⟩)
          · exact hp hmem
          · exact hname (Addition.entry_eq_plain.mp he).2.2.2
        rw [or_iff_right hname]
        constructor
        · intro hle
          by_contra hne
          have hlt := count_of_named hk hmem hne
          omega
        · intro hnil
          rw [count_of_none hk hnil, hone]
    · rw [namesAdded_cons_other ha]
      exact ih ((count_apply_other hk ha).trans h)

end Counting

/-! The additions of a plan. -/

section Planned

variable {sid : String} {xs : List Write} {bs : List Drop} {r : Relations} {d s t : Drop}
  {e : Relation} {i : Ident} {key : RelationKey} {oid : String}

theorem nodup_of_iff_count : ((r.of d key).map Entry.oid).Nodup ↔
    ∀ oid, (↑r : Entries).countP (IsAt d.ident key oid) ≤ 1 := by
  rw [List.nodup_iff_count_le_one]
  refine forall_congr' fun oid => ?_
  rw [List.count, List.countP_map, Relations.of, List.countP_map, List.countP_filter,
    Multiset.coe_countP]
  have hp : ∀ x ∈ r, ((((· == oid) ∘ Entry.oid) ∘ fun e : Ident × RelationKey × Entry => e.2.2) x &&
      (x.1 == d.ident && x.2.1 == key)) = true ↔ decide (IsAt d.ident key oid x) = true := by
    intro x _
    simp [and_assoc, and_comm]
  rw [List.countP_congr hp]

/-- A bridge's own lists aside, its number does not show. -/
theorem namesAdded_expand (hi : i.isBridge = false) :
    namesAdded ((expand sid bs xs).flatMap Relation.additions) i key oid =
      namesAdded (xs.flatMap (Write.tells sid)) i key oid := by
  induction xs generalizing bs with
  | nil => rfl
  | cons x xs ih =>
    cases x with
    | relate e =>
      rw [expand, List.flatMap_cons, List.flatMap_cons, namesAdded_append, namesAdded_append, ih]
      rfl
    | bridge s t =>
      have hne : ∀ n, Ident.bridge s.oid t.oid n ≠ i := by
        rintro n rfl
        cases hi
      rw [expand, List.flatMap_append, List.flatMap_cons, namesAdded_append, namesAdded_append, ih]
      refine congrArg (· ++ _) ?_
      simp [bridgeRelations, intoBridge, outOfBridge, Relation.additions, Write.tells, namesAdded,
        List.filter_cons, hne, Kind.forward, Kind.backward, bridgeDrop]

theorem bridgesBetween_snoc {s' t' : Drop} {n : Nat} :
    bridgesBetween (bs ++ [bridgeDrop sid s' t' n]) s t =
      bridgesBetween bs s t + if s'.oid = s.oid ∧ t'.oid = t.oid then 1 else 0 := by
  rw [bridgesBetween, List.countP_append, List.countP_singleton]
  simp [bridgesBetween, bridgeDrop]

/-- A bridge's own lists are told of one drop each. -/
theorem length_namesAdded_bridge {n : Nat}
    (h : ∀ x ∈ xs, x.ends.1.ident.isBridge = false ∧ x.ends.2.ident.isBridge = false) :
    (namesAdded ((expand sid bs xs).flatMap Relation.additions) (.bridge s.oid t.oid n) key
      oid).length ≤ if n < bridgesBetween bs s t then 0 else 1 := by
  induction xs generalizing bs with
  | nil => simp [expand, namesAdded]
  | cons x xs ih =>
    obtain ⟨hs, ht⟩ := h x List.mem_cons_self
    have hrest := fun bs : List Drop => @ih bs fun y hy => h y (List.mem_cons_of_mem x hy)
    have hmade : ∀ i : Ident, i.isBridge = false → i ≠ .bridge s.oid t.oid n := by
      rintro i hi rfl
      cases hi
    cases x with
    | relate e =>
      have hnone : namesAdded e.additions (.bridge s.oid t.oid n) key oid = [] := by
        rw [namesAdded_eq_nil]
        intro a ha hat
        simp only [Relation.additions, List.mem_cons, List.not_mem_nil, or_false] at ha
        rcases ha with rfl | rfl
        · exact hmade _ hs hat.1
        · exact hmade _ ht hat.1
      rw [expand, List.flatMap_cons, namesAdded_append, hnone, List.nil_append]
      exact hrest bs
    | bridge s' t' =>
      rw [expand, List.flatMap_append, namesAdded_append, List.length_append]
      have hrest := hrest (bs ++ [bridgeDrop sid s' t' (bridgesBetween bs s' t')])
      rw [bridgesBetween_snoc] at hrest
      have hnames : (bridgeRelations s' t' (bridgeDrop sid s' t' (bridgesBetween bs s' t'))).flatMap
          Relation.additions =
            [⟨s'.ident, .outputs, bridgeOid sid s'.oid t'.oid, some "stream", false⟩,
            ⟨.bridge s'.oid t'.oid (bridgesBetween bs s' t'), .producers, s'.oid,
              some "stream", true⟩,
            ⟨.bridge s'.oid t'.oid (bridgesBetween bs s' t'), .streamingConsumers, t'.oid,
              some "stream", false⟩,
            ⟨t'.ident, .streamingInputs, bridgeOid sid s'.oid t'.oid, some "stream", true⟩] := rfl
      rw [hnames]
      have hs' : s'.ident ≠ .bridge s.oid t.oid n := hmade _ hs
      have ht' : t'.ident ≠ .bridge s.oid t.oid n := hmade _ ht
      by_cases heq : s'.oid = s.oid ∧ t'.oid = t.oid ∧ bridgesBetween bs s' t' = n
      · obtain ⟨hso, hto, hn⟩ := heq
        have hcount : bridgesBetween bs s t = n := by
          rw [← hn, bridgesBetween, bridgesBetween, hso, hto]
        have hone : (if s'.oid = s.oid ∧ t'.oid = t.oid then 1 else 0) = 1 := if_pos ⟨hso, hto⟩
        rw [hone, hcount, if_pos (Nat.lt_succ_self n)] at hrest
        rw [hcount, if_neg (Nat.lt_irrefl n)]
        refine Nat.add_le_add (b := 1) (d := 0) ?_ hrest
        by_cases hkey : key = .producers
        · subst hkey
          simp only [namesAdded, List.filter_cons, hs', ht']
          simp
          split <;> simp
        · simp only [namesAdded, List.filter_cons, hs', ht', Ne.symm hkey]
          simp
          split <;> simp
      · have hb : Ident.bridge s'.oid t'.oid (bridgesBetween bs s' t') ≠
            .bridge s.oid t.oid n := fun he => heq (Ident.bridge.inj he)
        have hnone : ∀ l : List Addition, (∀ a ∈ l, a.owner ≠ .bridge s.oid t.oid n) →
            namesAdded l (.bridge s.oid t.oid n) key oid = [] :=
          fun l hl => namesAdded_eq_nil.mpr fun a ha hat => hl a ha hat.1
        rw [hnone _ (by simp [hs', ht', hb]), List.length_nil, Nat.zero_add]
        by_cases hlt : n < bridgesBetween bs s t
        · rw [if_pos (Nat.lt_add_right _ hlt)] at hrest
          rwa [if_pos hlt]
        · rw [if_neg hlt]
          exact hrest.trans ((ite_le_sup 0 1 _).trans (by decide))

end Planned

/-! The relations the drops are made with. -/

section Start

variable {lg : LG} {placed : List Placed} {p : Placed} {xs : List Write} {x : Write} {a : Addition}
  {n : LGNode} {d : Drop} {i : Ident} {key : RelationKey} {oid sid : String}

/-- What a drop is made with: nothing, what its listener knows, or the relation to its data. -/
theorem relations_of_placed (hi : instantiate lg = .ok placed) (hp : p ∈ placed) :
    p.relations = [] ∨ ∃ n c, IsInstance lg n c ∧ p.drop.IsPart lg n c .main ∧
      ((∃ socket name, Drop.IsPart lg n c .listener socket ∧
        p.relations = Relations.addOutput [] socket p.drop name) ∨
      ∃ part e, part ≠ .main ∧ e.kind = .output ∧ e.source = p.drop ∧
        e.target.IsPart lg n c part ∧ p.relations = Relations.relate [] e) := by
  obtain ⟨n, c, part, hc, hpart⟩ := isPart_of_mem_placed hi hp
  by_cases hmain : part = .main
  · subst hmain
    obtain ⟨-, m, hm, hd, -, hr⟩ := hpart.main rfl
    rw [hr, hd]
    cases hm.beside with
    | nothing hs hn hg hl hr => exact Or.inl hr
    | listener socket name hn hs hg hl hr =>
      exact Or.inr ⟨n, c, hc, hm.main, Or.inl ⟨socket, name, hs, hr⟩⟩
    | grpData data name hn hs hg hl hr =>
      exact Or.inr ⟨n, c, hc, hm.main, Or.inr
        ⟨.grpData, ⟨.output, m.drop, data, name, name⟩, by decide, rfl, rfl, hs, hr⟩⟩
    | gatherData data name hn hs hg hl hr =>
      exact Or.inr ⟨n, c, hc, hm.main, Or.inr
        ⟨.gatherData, ⟨.output, m.drop, data, name, name⟩, by decide, rfl, rfl, hs, hr⟩⟩
  · exact Or.inl (hpart.generated hmain).2.2

theorem Stands.not_listener (h : Stands lg placed n d) :
    ∃ c part, IsInstance lg n c ∧ d.IsPart lg n c part ∧ part ≠ .listener := by
  obtain ⟨p, hp, c, hc, hpart, hd⟩ := h
  split at hd
  · obtain ⟨-, m, hm, -, hg, -⟩ := hpart.main rfl
    rw [hg] at hd
    cases hm.beside with
    | nothing hs hn hg => simp [hg] at hd
    | listener socket name hn hs hg => simp [hg] at hd
    | grpData data name hn hs hg =>
      obtain rfl : data = d := by simpa [hg] using hd
      exact ⟨c, .grpData, hc, hs, by decide⟩
    | gatherData data name hn hs hg => simp [hg] at hd
  · subst hd
    exact ⟨c, .main, hc, hpart.drop, by decide⟩

/-- An addition of a write: at its source or at its target. -/
theorem tells_cases (h : a ∈ x.tells sid) :
    (a.owner = x.ends.1.ident ∧ (∃ k : Kind, a.key = k.forward) ∧
      (a.oid = x.ends.2.oid ∨ ∃ s t, a.oid = bridgeOid sid s t)) ∨
    (a.owner = x.ends.2.ident ∧ ∃ k : Kind, a.key = k.backward) := by
  cases x with
  | relate e =>
    simp only [Write.tells, Relation.additions, List.mem_cons, List.not_mem_nil, or_false] at h
    rcases h with rfl | rfl
    · exact Or.inl ⟨rfl, ⟨e.kind, rfl⟩, Or.inl rfl⟩
    · exact Or.inr ⟨rfl, e.kind, rfl⟩
  | bridge s t =>
    simp only [Write.tells, List.mem_cons, List.not_mem_nil, or_false] at h
    rcases h with rfl | rfl
    · exact Or.inl ⟨rfl, ⟨.output, rfl⟩, Or.inr ⟨s.oid, t.oid, rfl⟩⟩
    · exact Or.inr ⟨rfl, .streaming, rfl⟩

theorem count_pos_iff {r : Relations} :
    0 < (↑r : Entries).countP (IsAt i key oid) ↔ r.Lists i key oid := by
  rw [Multiset.countP_pos]
  constructor
  · rintro ⟨⟨i', key', e⟩, hmem, rfl, rfl, rfl⟩
    exact ⟨e, hmem, rfl⟩
  · rintro ⟨e, hmem, rfl⟩
    exact ⟨_, hmem, rfl, rfl, rfl⟩

theorem namesAdded_additions (e : Relation) :
    (namesAdded e.additions i key oid).length ≤ 1 := by
  have hne : e.kind.forward ≠ e.kind.backward := Kind.forward_ne_backward _ _
  by_cases hkey : key = e.kind.forward
  · subst hkey
    simp only [namesAdded, Relation.additions, List.filter_cons, Ne.symm hne]
    simp
    split <;> simp
  · simp only [namesAdded, Relation.additions, List.filter_cons, Ne.symm hkey]
    simp
    split <;> simp

theorem plainFirst_of_length {names : List (Option String)} (h : names.length ≤ 1) :
    PlainFirst names := by
  cases names with
  | nil => trivial
  | cons name names =>
    refine Or.inr (List.length_eq_zero_iff.mp ?_)
    simpa using h

/-- What a drop is made with is told once, and to lists nothing else is told to. -/
theorem count_placed (hi : instantiate lg = .ok placed) (hp : p ∈ placed) (hk : key ≠ .ports) :
    (↑p.relations : Entries).countP (IsAt i key oid) ≤ 1 := by
  rcases relations_of_placed hi hp with hr | ⟨n, c, -, -,
    ⟨socket, name, -, hr⟩ | ⟨part, e, -, -, -, -, hr⟩⟩
  · simp [hr]
  · rw [hr, Relations.addOutput, coe_add]
    have hone : (namesAdded [⟨socket.ident, .outputs, p.drop.oid, name, false⟩] i key oid).length ≤
        1 := by
      rw [namesAdded, List.length_map]
      exact List.length_filter_le _ _
    exact (count_le_one_iff (m := 0) hk (by simp)).mpr (plainFirst_of_length hone)
  · rw [hr, coe_relate]
    exact (count_le_one_iff hk (by simp)).mpr (plainFirst_of_length (namesAdded_additions e))

theorem own_cases (hi : instantiate lg = .ok placed) (hp : p ∈ placed) (hk : key ≠ .ports)
    (h : p.relations.Lists i key oid) :
    ∃ n c part, IsInstance lg n c ∧ p.drop.IsPart lg n c .main ∧ i = .made n.id c part ∧
      (part = .listener ∨
      (key = .outputs ∧ ∃ d : Drop, ∃ part', part' ≠ .main ∧ d.IsPart lg n c part' ∧ oid = d.oid) ∨
      (part ≠ .main ∧ key = .producers)) := by
  rcases relations_of_placed hi hp with hr | ⟨n, c, hc, hmain, hrel⟩
  · rw [hr] at h
    exact absurd h lists_nil
  rcases hrel with ⟨socket, name, hs, hr⟩ | ⟨part, e, hpart, hkind, hsource, htarget, hr⟩
  · rw [hr, Relations.addOutput, lists_add hk, or_iff_right lists_nil] at h
    exact ⟨n, c, .listener, hc, hmain, h.1.trans hs.ident, Or.inl rfl⟩
  · rw [hr, lists_relate hk, or_iff_right lists_nil] at h
    rcases h with ⟨hid, hkey, hoid⟩ | ⟨hid, hkey, hoid⟩
    · refine ⟨n, c, .main, hc, hmain, ?_,
        Or.inr (Or.inl ⟨?_, e.target, part, hpart, htarget, hoid⟩)⟩
      · rw [hid, hsource, hmain.ident]
      · rw [hkey, hkind]
        rfl
    · refine ⟨n, c, part, hc, hmain, hid.trans htarget.ident, Or.inr (Or.inr ⟨hpart, ?_⟩)⟩
      rw [hkey, hkind]
      rfl

/-- Nothing that is planned is told to a list a drop has been made with. -/
theorem namesAdded_own (hi : instantiate lg = .ok placed) (hplan : plan lg placed = .ok xs)
    (hp : p ∈ placed) (hk : key ≠ .ports) (h : p.relations.Lists i key oid) :
    namesAdded (xs.flatMap (Write.tells sid)) i key oid = [] := by
  obtain ⟨n, c, part, hc, -, rfl, hown⟩ := own_cases hi hp hk h
  rw [namesAdded_eq_nil]
  rintro a ha ⟨howner, rfl, rfl⟩
  obtain ⟨x, hx, ha⟩ := List.mem_flatMap.mp ha
  obtain ⟨⟨m, hs⟩, m', ht⟩ := plan_ends hi hplan hx
  rcases tells_cases ha with ⟨ho, ⟨kind, hkind⟩, hoid⟩ | ⟨ho, kind, hkind⟩
  · rcases hown with rfl | ⟨-, d, part', hne, hd, hoid'⟩ | ⟨-, hkey⟩
    · obtain ⟨c', part', -, hs, hne⟩ := hs.not_listener
      rw [ho, hs.ident] at howner
      exact hne (Ident.made.inj howner).2.2
    · rcases hoid with hoid | ⟨s, t, hoid⟩
      · obtain ⟨q, -, c', hc', hq, hqd⟩ := ht
        have he := texts_of_oid_eq hc hc' hd hq.drop
          (hoid'.symm.trans (hoid.trans (congrArg Drop.oid hqd.symm)))
        exact hne he.2.1
      · exact IsMade.oid_ne_bridge ⟨n, c, part', hc, hd⟩ sid s t (hoid'.symm.trans hoid)
    · exact Kind.forward_ne_backward kind .output (hkind.symm.trans hkey)
  · obtain ⟨q, -, c', hc', hq, hqd⟩ := ht
    rw [ho, ← hqd, hq.drop.ident] at howner
    have hmain : part = .main := (Ident.made.inj howner).2.2.symm
    rcases hown with rfl | ⟨hkey, -⟩ | ⟨hne, -⟩
    · cases hmain
    · exact Kind.forward_ne_backward .output kind (hkey.symm.trans hkind)
    · exact hne hmain

/-- What the drops are made with, all together. -/
theorem count_start (hi : instantiate lg = .ok placed) (hk : key ≠ .ports) :
    (↑(startLedger placed).relations : Entries).countP (IsAt i key oid) ≤ 1 := by
  have hn : (placed.map fun p => p.drop.ident).Nodup := by
    rw [lgnToPgn_eq_layout (b := (.root, none)) hi]
    exact nodup_layout (distinctIds_started lg.graph)
  have hall : ∀ l : List Placed, l ⊆ placed → (l.map fun p => p.drop.ident).Nodup →
      (↑(l.flatMap (·.relations)) : Entries).countP (IsAt i key oid) ≤ 1 := by
    intro l hl hnl
    induction l with
    | nil => simp
    | cons p l ih =>
      rw [List.map_cons, List.nodup_cons] at hnl
      have hrest := ih (fun q hq => hl (List.mem_cons_of_mem p hq)) hnl.2
      have hp : p ∈ placed := hl List.mem_cons_self
      rw [List.flatMap_cons, ← Multiset.coe_add, Multiset.countP_add]
      by_cases hzero : (↑p.relations : Entries).countP (IsAt i key oid) = 0
      · omega
      -- the others have other owners
      have hlists := count_pos_iff.mp (Nat.pos_of_ne_zero hzero)
      obtain ⟨n, c, part, -, hmain, rfl, -⟩ := own_cases hi hp hk hlists
      have hnone : (↑(l.flatMap (·.relations)) : Entries).countP
          (IsAt (.made n.id c part) key oid) = 0 := by
        by_contra hne
        obtain ⟨q, hq, hql⟩ := lists_flatMap.mp (count_pos_iff.mp (Nat.pos_of_ne_zero hne))
        obtain ⟨n', c', part', -, hmain', hident, -⟩ :=
          own_cases hi (hl (List.mem_cons_of_mem p hq)) hk hql
        obtain ⟨hid, hcc, -⟩ := Ident.made.inj hident
        refine hnl.1 (List.mem_map.mpr ⟨q, hq, ?_⟩)
        rw [hmain.ident, hmain'.ident, hid, hcc]
      rw [hnone, Nat.add_zero]
      exact count_placed hi hp hk
  exact hall placed (List.Subset.refl _) hn

end Start

/-! The relations of a template. -/

section Unrolled

variable {g : LogicalGraph} {tpl : Template} {lg : LG} {placed : List Placed} {xs : List Write}
  {deleted : List NodeId} {i : Ident} {key : RelationKey} {oid : String} {d : Drop}

/-- An oid is in a list at most once unless it was named when it first came. -/
theorem count_template (hu : Unrolled g tpl lg placed xs deleted) (hk : key ≠ .ports) :
    (↑tpl.relations : Entries).countP (IsAt i key oid) ≤ 1 ↔
      PlainFirst (namesAdded ((expand lg.graph.sessionId [] xs).flatMap Relation.additions)
        i key oid) := by
  have hb : (startLedger placed).bridges = [] := rfl
  rw [hu.relations, finalLedger, relations_foldl_write, hb, coe_foldl_relate]
  by_cases hzero : (↑(startLedger placed).relations : Entries).countP (IsAt i key oid) = 0
  · exact count_le_one_iff hk hzero
  obtain ⟨p, hp, hl⟩ := lists_flatMap.mp (count_pos_iff.mp (Nat.pos_of_ne_zero hzero))
  obtain ⟨n, c, part, -, -, hi, -⟩ := own_cases hu.instantiated hp hk hl
  have hbridge : i.isBridge = false := by
    rw [hi]
    rfl
  have hnone : namesAdded ((expand lg.graph.sessionId [] xs).flatMap Relation.additions)
      i key oid = [] :=
    (namesAdded_expand hbridge).trans (namesAdded_own hu.instantiated hu.planned hp hk hl)
  rw [count_of_none hk hnone, hnone]
  exact iff_of_true (count_start hu.instantiated hk) trivial

theorem ends_not_bridge (hu : Unrolled g tpl lg placed xs deleted) :
    ∀ x ∈ xs, x.ends.1.ident.isBridge = false ∧ x.ends.2.ident.isBridge = false := by
  intro x hx
  obtain ⟨⟨n, hs⟩, m, ht⟩ := plan_ends hu.instantiated hu.planned hx
  refine ⟨?_, ?_⟩
  · obtain ⟨_, c, part, -, hd⟩ := hs.isMade
    rw [hd.ident]
    rfl
  · obtain ⟨_, c, part, -, hd⟩ := ht.isMade
    rw [hd.ident]
    rfl

/-- No edge is recorded twice just when no connection comes again that had a port name when it
first came. -/
theorem oncePerList_iff_joinsOnce (h : g.unroll = .ok tpl) : tpl.OncePerList ↔ g.JoinsOnce := by
  obtain ⟨lg, placed, xs, deleted, hb, hu⟩ := unroll_ok h
  have hcount : ∀ d, (∀ key ≠ RelationKey.ports, ((tpl.relations.of d key).map Entry.oid).Nodup) ↔
      ∀ key ≠ RelationKey.ports, ∀ oid, PlainFirst (namesAdded
        ((expand lg.graph.sessionId [] xs).flatMap Relation.additions) d.ident key oid) := by
    intro d
    refine forall₂_congr fun key hk => ?_
    rw [nodup_of_iff_count]
    exact forall_congr' fun oid => count_template hu hk
  have hmade : ∀ p ∈ placed, ∀ key oid, namesAdded
      ((expand lg.graph.sessionId [] xs).flatMap Relation.additions) p.drop.ident key oid =
        namesAdded (xs.flatMap (Write.tells g.sessionId)) p.drop.ident key oid := by
    intro p hp key oid
    obtain ⟨n, c, part, -, hpart⟩ := isPart_of_mem_placed hu.instantiated hp
    rw [← hu.graph]
    refine namesAdded_expand ?_
    rw [hpart.drop.ident]
    rfl
  constructor
  · intro ho lg' placed' xs' hb' hplan p hp hstays key oid
    obtain ⟨rfl, rfl⟩ := Prod.mk.inj (Except.ok.inj (hb'.symm.trans hb))
    obtain rfl := Except.ok.inj (hplan.symm.trans hu.planned)
    by_cases hk : key = .ports
    · subst hk
      -- no relation is told to the list of ports
      have hnil : namesAdded (xs'.flatMap (Write.tells g.sessionId)) p.drop.ident .ports oid =
          [] := by
        rw [namesAdded_eq_nil]
        rintro a ha ⟨-, hkey, -⟩
        obtain ⟨x, -, ha⟩ := List.mem_flatMap.mp ha
        rcases tells_cases ha with ⟨-, ⟨kind, hkind⟩, -⟩ | ⟨-, kind, hkind⟩
        · exact kind.ne_ports.1 (hkind.symm.trans hkey)
        · exact kind.ne_ports.2 (hkind.symm.trans hkey)
      rw [hnil]
      trivial
    · rw [← hmade p hp]
      exact (hcount p.drop).mp
        (ho p.drop ((mem_drops hu).mpr (Or.inl ⟨p, hp, rfl, hstays⟩))) key hk oid
  · intro hj d hd
    rw [hcount]
    intro key hk oid
    rcases (mem_drops hu).mp hd with ⟨p, hp, rfl, hstays⟩ | hbridge
    · rw [hmade p hp]
      exact hj lg placed xs hb hu.planned p hp hstays key oid
    · obtain ⟨s, t, n, -, rfl, -⟩ := mem_bridges_final hbridge
      refine plainFirst_of_length ?_
      exact length_namesAdded_bridge (s := s) (t := t) (n := n) (ends_not_bridge hu)

end Unrolled

/-- A Loop in a Scatter: an application that starts an iteration, and data that end it. -/
def loopsAgain (copies : Int) : LogicalGraph where
  sessionId := "s"
  forest :=
    .cons { id := .int 1, category := .scatter, categoryType := .construct, isGroup := true
            keys := [("num_of_copies", .int copies)] }
      (.cons { id := .int 2, category := .loop, categoryType := .construct, isGroup := true
               keys := [("num_of_iter", .int 2)] }
        (.cons { id := .int 3, category := .pythonApp, categoryType := .application
                 fields := [{ id := "w", name := "written", usage := .outputPort },
                   { id := "r", name := "read", usage := .inputPort }]
                 keys := [("group_start", .bool true)] } .nil
          (.cons { id := .int 4, category := .file, categoryType := .data
                   fields := [{ id := "d", name := "data", usage := .inputOutput }]
                   keys := [("group_end", .bool true)] } .nil .nil)) .nil) .nil
  links := [{ source := .int 3, target := .int 4, fromPort := some "w", toPort := some "d" }]
  ids_nodup := by
    change [NodeId.int 1, .int 2, .int 3, .int 4].Nodup
    decide
  ids_ne_newAdded := by
    have hids : ∀ id ∈ [NodeId.int 1, .int 2, .int 3, .int 4], id ≠ newAdded := by decide
    exact fun n hn => hids n.id (List.mem_map_of_mem (f := fun n => n.id) hn)

theorem oncePerList_loopsAgain : ∃ tpl, (loopsAgain 1).unroll = .ok tpl ∧
    (tpl.OncePerList ↔ (loopsAgain 1).JoinsOnce) := by
  obtain ⟨tpl, h⟩ : ∃ tpl, (loopsAgain 1).unroll = .ok tpl := ⟨_, rfl⟩
  exact ⟨tpl, h, oncePerList_iff_joinsOnce h⟩

/-- The circle of the Loop is linked once for each copy of the Scatter around it. -/
theorem loopsAgain_repeated :
    ∃ tpl, (loopsAgain 2).unroll = .ok tpl ∧ ¬tpl.OncePerList := by
  have h : (loopsAgain 2).unroll.toOption.any (fun tpl => tpl.drops.any fun d =>
      !decide ((tpl.relations.of d .consumers).map Entry.oid).Nodup) = true := by
    decide +kernel
  cases hu : (loopsAgain 2).unroll with
  | error e => simp [hu, Except.toOption] at h
  | ok tpl =>
    refine ⟨tpl, rfl, fun ho => ?_⟩
    simp only [hu, Except.toOption, Option.any_some, List.any_eq_true] at h
    obtain ⟨d, hd, hrep⟩ := h
    simp [ho d hd .consumers (by decide)] at hrep

end Daliuge.Unroll
