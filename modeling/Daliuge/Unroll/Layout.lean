import Daliuge.Lib.Enumeration
import Daliuge.Unroll.Instantiate

/-!
# Where the drops are

`lgn_to_pgn` walks the forest; what it leaves for one node is an enumeration of index tuples,
one index for each group around the node. The walk is first replaced by the total function it
computes when it succeeds.
-/
namespace Daliuge.Unroll

open Collect Enumeration

/-- A coordinate and the loop context there. -/
abbrev Place := InstanceId × Option (List Nat)

section Layout

variable (lg : LG)

/-- The dop of a node, as a count. -/
def LG.copies (n : LGNode) : Nat := ((lg.graph.dop lg.inputs n).toOption.getD 0).toNat

/-- The shape of a GroupBy with several keys, at one place. -/
def LG.shape (n : LGNode) (c : InstanceId) : Option (List Nat) :=
  (groupShape lg n c).toOption.getD none

/-- The i-th instance of a group. -/
def enter (n : LGNode) (b : Place) (i : Nat) : Place :=
  (instanceOf b.1 (lg.shape n b.1) i, getChildLpCtx n.node b.2 i)

def groupPlaced (n : LGNode) (c : InstanceId) : List Placed :=
  (groupDrops lg n c).toOption.getD []

def leafPlaced (n : LGNode) (b : Place) : List Placed :=
  (leafDrops lg n b.1 b.2).toOption.getD []

/-- Everything the walk places below a level of the forest. -/
def layout (groups : List Node) : Forest → Place → List Placed
  | .nil, _ => []
  | .cons n children rest, b =>
    (if n.isGroup then
      (List.range (lg.copies ⟨n, groups⟩)).flatMap fun i =>
        groupPlaced lg ⟨n, groups⟩ (enter lg ⟨n, groups⟩ b i).1 ++
          layout (n :: groups) children (enter lg ⟨n, groups⟩ b i)
      else leafPlaced lg ⟨n, groups⟩ b) ++ layout groups rest b

/-- How many instances each group of a chain has inside the one before it. -/
def bounds : List Node → List Node → List Nat
  | _, [] => []
  | groups, g :: down =>
    (if g.isGroup then lg.copies ⟨g, groups⟩ else 0) :: bounds (g :: groups) down

/-- The place reached through a chain of groups, from the outside, by one index for each. -/
def descend : List Node → Place → List Node → List Nat → Place
  | groups, b, g :: down, i :: is => descend (g :: groups) (enter lg ⟨g, groups⟩ b i) down is
  | _, b, _, _ => b

/-- What a node itself places at one place around it. -/
def ownPlaced (n : LGNode) (b : Place) : List Placed :=
  if n.isGroup then
    (List.range (lg.copies n)).flatMap fun i => groupPlaced lg n (enter lg n b i).1
  else leafPlaced lg n b

end Layout

variable {lg : LG} {groups down : List Node} {f : Forest} {b : Place} {placed : List Placed}
  {n m : LGNode} {p : Placed}

theorem toOption_getD_ok {α : Type} {x : Except Err α} {a d : α} (h : x = .ok a) :
    x.toOption.getD d = a := by
  subst h
  rfl

/-- A step of a walk that succeeds. -/
theorem lgnToPgn_cons {node : Node} {below others : Forest}
    (h : lgnToPgn lg groups (.cons node below others) b.1 b.2 = .ok placed) :
    ∃ here rest, placed = here ++ rest ∧ lgnToPgn lg groups others b.1 b.2 = .ok rest ∧
      (node.isGroup = true → ∃ g : Nat → List Placed,
        here = (List.range (lg.copies ⟨node, groups⟩)).flatMap g ∧
        ∀ i ∈ List.range (lg.copies ⟨node, groups⟩), ∃ own down, g i = own ++ down ∧
          groupDrops lg ⟨node, groups⟩ (enter lg ⟨node, groups⟩ b i).1 = .ok own ∧
          lgnToPgn lg (node :: groups) below (enter lg ⟨node, groups⟩ b i).1
            (enter lg ⟨node, groups⟩ b i).2 = .ok down) ∧
      (node.isGroup = false → leafDrops lg ⟨node, groups⟩ b.1 b.2 = .ok here) := by
  obtain ⟨here, hhere, h⟩ := bind_ok.mp h
  obtain ⟨rest, hrest, h⟩ := bind_ok.mp h
  obtain rfl := pure_ok.mp h
  refine ⟨here, rest, rfl, hrest, fun hg => ?_, fun hg => by simpa [hg] using hhere⟩
  rw [if_pos hg] at hhere
  obtain ⟨shape, hshape, hhere⟩ := bind_ok.mp hhere
  obtain ⟨d, hd, hhere⟩ := bind_ok.mp hhere
  obtain ⟨g, hmem, rfl⟩ := exists_of_collect hhere
  have hs : lg.shape ⟨node, groups⟩ b.1 = shape := toOption_getD_ok hshape
  have hc : lg.copies ⟨node, groups⟩ = d.toNat := congrArg Int.toNat (toOption_getD_ok hd)
  refine ⟨g, by rw [hc], fun i hi => ?_⟩
  rw [hc] at hi
  obtain ⟨own, hown, hi⟩ := bind_ok.mp (hmem i hi)
  obtain ⟨down, hdown, hi⟩ := bind_ok.mp hi
  have henter : enter lg ⟨node, groups⟩ b i =
      (instanceOf b.1 shape i, getChildLpCtx node b.2 i) := by simp [enter, hs]
  rw [henter]
  exact ⟨own, down, (pure_ok.mp hi).symm, hown, hdown⟩

/-- A walk that succeeds has computed the layout. -/
theorem lgnToPgn_eq_layout (h : lgnToPgn lg groups f b.1 b.2 = .ok placed) :
    placed = layout lg groups f b := by
  induction f generalizing groups b placed with
  | nil =>
    cases h
    rfl
  | cons n children rest ihc ihr =>
    obtain ⟨here, others, rfl, hothers, hgroup, hleaf⟩ := lgnToPgn_cons h
    rw [ihr hothers, layout]
    congr 1
    cases hg : n.isGroup with
    | true =>
      obtain ⟨g, rfl, hmem⟩ := hgroup hg
      rw [if_pos rfl]
      refine List.flatMap_congr fun i hi => ?_
      obtain ⟨own, down, hi, hown, hdown⟩ := hmem i hi
      rw [hi, ihc hdown, groupPlaced, toOption_getD_ok hown]
    | false => simpa [leafPlaced] using (toOption_getD_ok (hleaf hg)).symm

/-! What one node places. -/

/-- What a part adds to the oid of the main drop. -/
def Part.ending : Part → String
  | .main => ""
  | .grpData => "-grp-data"
  | .gatherData => "-gather-data"
  | .listener => "-s"

/-- A part of an instance of a node. -/
structure Drop.IsPart (lg : LG) (n : LGNode) (c : InstanceId) (part : Part) (d : Drop) : Prop where
  ident : d.ident = .made n.id c part
  oid : d.oid = lg.graph.makeOid n.id c ++ part.ending

/-- What is generated beside a main drop, and how the two know each other. -/
inductive Made.Beside (lg : LG) (n : LGNode) (c : InstanceId) (m : Made) : Prop
  | nothing (hs : isStartListener lg n = false)
      (hn : n.isConstruct .groupBy = true → n.node.isData = true ∨ n.node.isApp = true)
      (hg : m.grpData = none) (hl : m.listener = none) (hr : m.relations = [])
  | listener (socket : Drop) (name : Option String) (hn : isStartListener lg n = true)
      (hd : socket.IsPart lg n c .listener) (hg : m.grpData = none) (hl : m.listener = some socket)
      (hr : m.relations = Relations.addOutput [] socket m.drop name)
  | grpData (data : Drop) (name : Option String)
      (hn : n.isConstruct .groupBy = true ∧ n.node.isData = false ∧ n.node.isApp = false)
      (hd : data.IsPart lg n c .grpData) (hg : m.grpData = some data) (hl : m.listener = none)
      (hr : m.relations =
        (Relations.addOutput [] m.drop data name).addProducer data m.drop name)
  | gatherData (data : Drop) (name : Option String) (hn : n.isConstruct .gather = true)
      (hd : data.IsPart lg n c .gatherData) (hg : m.grpData = none) (hl : m.listener = none)
      (hr : m.relations =
        (Relations.addOutput [] m.drop data name).addProducer data m.drop name)

/-- A drop made at an instance of a node, with what is generated beside it. -/
structure Made.From (lg : LG) (n : LGNode) (c : InstanceId) (m : Made) : Prop where
  main : m.drop.IsPart lg n c .main
  beside : m.Beside lg n c

section Making

variable {c : InstanceId} {ctx : Option (List Nat)} {m : Made}

theorem mainDrop_isPart (lg : LG) (n : LGNode) (c : InstanceId) (ctx : Option (List Nat))
    (weight : Option Int) : (mainDrop lg n c ctx weight).IsPart lg n c .main :=
  ⟨rfl, by simp [mainDrop, Part.ending]⟩

theorem not_listener (h : n.node.category ≠ .start ∨ n.node.isData = false) :
    isStartListener lg n = false := by
  rcases h with h | h
  · simp [isStartListener, h]
  · simp [isStartListener, h]

theorem createAppDrop_ok (h : createAppDrop lg n c ctx = .ok m) :
    m = { drop := mainDrop lg n c ctx (some n.node.weight) } := by
  obtain ⟨_, -, h⟩ := bind_ok.mp h
  split at h
  · simp at h
  · obtain ⟨_, -, h⟩ := bind_ok.mp h
    exact (pure_ok.mp h).symm

theorem createAppDrop_from (hs : n.node.category ≠ .start ∨ n.node.isData = false)
    (hn : n.isConstruct .groupBy = true → n.node.isData = true ∨ n.node.isApp = true)
    (h : createAppDrop lg n c ctx = .ok m) : m.From lg n c ∧ m.drop.loopCtx = ctx := by
  obtain rfl := createAppDrop_ok h
  exact ⟨⟨mainDrop_isPart lg n c ctx _, .nothing (not_listener hs) hn rfl rfl rfl⟩, rfl⟩

theorem createDataDrop_from (hd : n.node.isData = true)
    (h : createDataDrop lg n c ctx = .ok m) : m.From lg n c ∧ m.drop.loopCtx = ctx := by
  unfold createDataDrop at h
  split at h
  · simp at h
  split at h
  · simp at h
  dsimp only at h
  split at h
  · rename_i hl
    cases h
    exact ⟨⟨mainDrop_isPart lg n c ctx _, .listener _ _ hl ⟨rfl, rfl⟩ rfl rfl rfl⟩, rfl⟩
  · rename_i hl
    cases h
    exact ⟨⟨mainDrop_isPart lg n c ctx _,
      .nothing (by simpa using hl) (fun _ => Or.inl hd) rfl rfl rfl⟩, rfl⟩

theorem makeSingleDrop_from (h : makeSingleDrop lg n c ctx = .ok m) :
    m.From lg n c ∧ m.drop.loopCtx = ctx := by
  unfold makeSingleDrop at h
  split at h
  · rename_i hd
    exact createDataDrop_from hd h
  rename_i hd
  have hdata : n.node.isData = false := by simpa using hd
  split at h
  · rename_i ha
    exact createAppDrop_from (Or.inr hdata) (fun _ => Or.inr ha) h
  rename_i ha
  split at h
  · rename_i hc
    obtain ⟨sij, -, h⟩ := bind_ok.mp h
    split at h
    · simp at h
    · obtain ⟨width, -, h⟩ := bind_ok.mp h
      obtain rfl := pure_ok.mp h
      have hg : n.isConstruct .groupBy = true := by simp [LGNode.isConstruct, Node.isConstruct, hc]
      exact ⟨⟨mainDrop_isPart lg n c ctx _,
        .grpData _ _ ⟨hg, hdata, by simpa using ha⟩ ⟨rfl, rfl⟩ rfl rfl rfl⟩, rfl⟩
  rename_i hgb
  have hgroup : n.isConstruct .groupBy = true → n.node.isData = true ∨ n.node.isApp = true := by
    intro hg
    simp [LGNode.isConstruct, Node.isConstruct, hgb] at hg
  split at h
  · rename_i hc
    obtain ⟨dw, -, h⟩ := bind_ok.mp h
    obtain rfl := pure_ok.mp h
    have hg : n.isConstruct .gather = true := by simp [LGNode.isConstruct, Node.isConstruct, hc]
    exact ⟨⟨mainDrop_isPart lg n c ctx _, .gatherData _ _ hg ⟨rfl, rfl⟩ rfl rfl rfl⟩, rfl⟩
  split at h
  · exact createAppDrop_from (Or.inr hdata) hgroup h
  · cases h
    exact ⟨⟨mainDrop_isPart lg n c ctx _,
      .nothing (not_listener (Or.inr hdata)) hgroup rfl rfl rfl⟩, rfl⟩

theorem grpData_none (hm : m.From lg n c) (h : n.isConstruct .groupBy = false) :
    m.grpData = none := by
  cases hm.beside with
  | nothing hs hn hg => exact hg
  | listener socket name hn hd hg => exact hg
  | grpData data name hn => simp [h] at hn
  | gatherData data name hn hd hg => exact hg

theorem listener_none (hm : m.From lg n c) (h : isStartListener lg n = false) :
    m.listener = none := by
  cases hm.beside with
  | nothing hs hn hg hl => exact hl
  | listener socket name hn => simp [h] at hn
  | grpData data name hn hd hg hl => exact hl
  | gatherData data name hn hd hg hl => exact hl

/-- The generated drop that goes to "new_added". -/
def Made.generated (m : Made) (n : LGNode) : Option Drop :=
  if n.isGroup then m.grpData else if n.node.isSubGraphApp = some true then none else m.listener

theorem generated_isPart {d : Drop} (hm : m.From lg n c) (h : m.generated n = some d) :
    ∃ part, part ≠ .main ∧ d.IsPart lg n c part := by
  have hd : m.grpData = some d ∨ m.listener = some d := by
    unfold Made.generated at h
    split at h
    · exact Or.inl h
    split at h
    · simp at h
    · exact Or.inr h
  cases hm.beside with
  | nothing hs hn hg hl => simp [hg, hl] at hd
  | listener socket name hn hs hg hl =>
    simp only [hg, hl, reduceCtorEq, false_or, Option.some.injEq] at hd
    exact ⟨.listener, by decide, hd ▸ hs⟩
  | grpData data name hn hs hg hl =>
    simp only [hg, hl, reduceCtorEq, or_false, Option.some.injEq] at hd
    exact ⟨.grpData, by decide, hd ▸ hs⟩
  | gatherData data name hn hs hg hl => simp [hg, hl] at hd

end Making

/-- A part of an instance in its place: the main drop under the key of its node with what it
was made with, a generated one under the common key. -/
structure Placed.IsPart (lg : LG) (n : LGNode) (c : InstanceId) (part : Part) (p : Placed) :
    Prop where
  drop : p.drop.IsPart lg n c part
  main : part = .main → p.key = n.id ∧ ∃ m : Made, m.From lg n c ∧ p.drop = m.drop ∧
    p.grpData = m.grpData ∧ p.relations = m.relations
  generated : part ≠ .main → p.key = newAdded ∧ p.grpData = none ∧ p.relations = []

theorem isPart_of_mem_place {c : InstanceId} {m : Made} (hm : m.From lg n c)
    (hp : p ∈ m.place n.id (m.generated n)) : ∃ part, p.IsPart lg n c part := by
  rcases List.mem_cons.mp hp with rfl | hp
  · exact ⟨.main, hm.main, fun _ => ⟨rfl, m, hm, rfl, rfl, rfl⟩, fun h => absurd rfl h⟩
  · cases hg : m.generated n with
    | none => simp [hg] at hp
    | some d =>
      obtain rfl : p = { key := newAdded, drop := d } := by simpa [hg] using hp
      obtain ⟨part, hne, hd⟩ := generated_isPart hm hg
      exact ⟨part, hd, fun h => absurd h hne, fun _ => ⟨rfl, rfl, rfl⟩⟩

/-- What is placed for one instance of a node: nothing, or its main drop and what is generated
beside it. -/
def IsPlacing (lg : LG) (n : LGNode) (c : InstanceId) (l : List Placed) : Prop :=
  l = [] ∨ ∃ m : Made, m.From lg n c ∧ l = m.place n.id (m.generated n)

theorem isPart_of_isPlacing {c : InstanceId} {l : List Placed} (h : IsPlacing lg n c l)
    (hp : p ∈ l) : ∃ part, p.IsPart lg n c part := by
  rcases h with rfl | ⟨m, hm, rfl⟩
  · simp at hp
  · exact isPart_of_mem_place hm hp

theorem groupPlaced_isPlacing (lg : LG) (hg : n.isGroup = true) (c : InstanceId) :
    IsPlacing lg n c (groupPlaced lg n c) := by
  unfold groupPlaced
  cases hr : groupDrops lg n c with
  | error e => exact Or.inl rfl
  | ok r =>
    have placed : ∀ {m : Made} {g : Option Drop}, m.From lg n c → g = m.grpData →
        (pure (m.place n.id g) : Except Err _) = .ok r →
        IsPlacing lg n c ((Except.ok r : Except Err _).toOption.getD []) := by
      intro m g hm he hr
      refine Or.inr ⟨m, hm, ?_⟩
      rw [Made.generated, if_pos hg, ← he]
      exact (pure_ok.mp hr).symm
    unfold groupDrops at hr
    split at hr
    · rename_i hs
      obtain ⟨m, hm, hr⟩ := bind_ok.mp hr
      have hc : n.node.category = .service := by
        simpa [LGNode.isConstruct, Node.isConstruct] using hs
      have hb : n.isConstruct .groupBy = false := by
        simp [LGNode.isConstruct, Node.isConstruct, hc]
      have hf := (createAppDrop_from (Or.inl (by simp [hc])) (by simp [hb]) hm).1
      exact placed hf (grpData_none hf hb).symm hr
    split at hr
    · cases hr
      exact Or.inl rfl
    · obtain ⟨m, hm, hr⟩ := bind_ok.mp hr
      have hf := (makeSingleDrop_from hm).1
      split at hr
      · split at hr
        · rename_i d hd
          exact placed hf hd.symm hr
        · simp at hr
      · rename_i hb
        exact placed hf (grpData_none hf (by simpa using hb)).symm hr

/-- The coordinates of a leaf's drops at one place: its own, or one for each MPI process. -/
def leafCoords (lg : LG) (n : LGNode) (c : InstanceId) : List InstanceId :=
  if n.isConstruct .mpi then (List.range (lg.copies n)).map c.child else [c]

theorem leafPlaced_isPlacing (lg : LG) (hg : n.isGroup = false) (b : Place) :
    ∃ f : InstanceId → List Placed, leafPlaced lg n b = (leafCoords lg n b.1).flatMap f ∧
      ∀ c ∈ leafCoords lg n b.1, IsPlacing lg n c (f c) := by
  unfold leafPlaced
  cases hr : leafDrops lg n b.1 b.2 with
  | error e => exact ⟨fun _ => [], by simp [Except.toOption], fun _ _ => Or.inl rfl⟩
  | ok r =>
    rw [toOption_getD_ok rfl]
    unfold leafDrops at hr
    split at hr
    · rename_i hmpi
      obtain ⟨d, hd, hr⟩ := bind_ok.mp hr
      have hc : lg.copies n = d.toNat := congrArg Int.toNat (toOption_getD_ok hd)
      have hmade : ∀ i ∈ List.range d.toNat, ∃ m,
          makeSingleDrop lg n (b.1.child i) b.2 = .ok m := by
        obtain ⟨g, hg, -⟩ := exists_of_collect hr
        intro i hi
        obtain ⟨m, hm, -⟩ := bind_ok.mp (hg i hi)
        exact ⟨m, hm⟩
      refine ⟨fun c => ((makeSingleDrop lg n c b.2).toOption.map fun m =>
        m.place n.id none).getD [], ?_, ?_⟩
      · obtain ⟨g, hg, rfl⟩ := exists_of_collect hr
        simp only [leafCoords, hmpi, if_true, hc, List.flatMap_map]
        refine List.flatMap_congr fun i hi => ?_
        obtain ⟨m, hm, hi⟩ := bind_ok.mp (hg i hi)
        simp [hm, Except.toOption, ← pure_ok.mp hi]
      · intro c hcm
        simp only [leafCoords, hmpi, if_true, hc] at hcm
        obtain ⟨i, hi, rfl⟩ := List.mem_map.mp hcm
        obtain ⟨m, hm⟩ := hmade i hi
        have hf := (makeSingleDrop_from hm).1
        have hs : isStartListener lg n = false := by
          simp_all [isStartListener, LGNode.isConstruct, Node.isConstruct]
        have hgen : m.generated n = none := by simp [Made.generated, hg, listener_none hf hs]
        exact Or.inr ⟨m, hf, by simp [hm, Except.toOption, hgen]⟩
    · rename_i hmpi
      have hcoords : leafCoords lg n b.1 = [b.1] := by simp [leafCoords, hmpi]
      refine ⟨fun _ => r, by simp [hcoords], fun c hcm => ?_⟩
      obtain rfl : c = b.1 := by simpa [hcoords] using hcm
      split at hr
      · cases hr
        exact Or.inl rfl
      · obtain ⟨m, hm, hr⟩ := bind_ok.mp hr
        have hf := (makeSingleDrop_from hm).1
        refine Or.inr ⟨m, hf, ?_⟩
        simp only [Made.generated, hg, Bool.false_eq_true, if_false]
        split at hr
        · rename_i ha
          rw [if_pos ha]
          exact (pure_ok.mp hr).symm
        · rename_i ha
          rw [if_neg ha]
          exact (pure_ok.mp hr).symm

theorem mem_groupPlaced {c : InstanceId} (hg : n.isGroup = true) (h : p ∈ groupPlaced lg n c) :
    ∃ part, p.IsPart lg n c part :=
  isPart_of_isPlacing (groupPlaced_isPlacing lg hg c) h

theorem mem_leafPlaced (hg : n.isGroup = false) (h : p ∈ leafPlaced lg n b) :
    ∃ c ∈ leafCoords lg n b.1, ∃ part, p.IsPart lg n c part := by
  obtain ⟨f, hf, hc⟩ := leafPlaced_isPlacing lg hg b
  rw [hf] at h
  obtain ⟨c, hm, hp⟩ := List.mem_flatMap.mp h
  exact ⟨c, hm, isPart_of_isPlacing (hc c hm) hp⟩

/-- The only keys in use are those of the nodes and the common one. -/
theorem key_of_isPart {c : InstanceId} {part : Part} (h : p.IsPart lg n c part) :
    p.key = n.id ∨ p.key = newAdded := by
  by_cases hp : part = .main
  · exact Or.inl (h.main hp).1
  · exact Or.inr (h.generated hp).1

theorem key_layout (h : p ∈ layout lg groups f b) :
    p.key = newAdded ∨ ∃ m ∈ f.nodes groups, p.key = m.id := by
  induction f generalizing groups b with
  | nil => simp [layout] at h
  | cons n children rest ihc ihr =>
    have own : (∃ c part, p.IsPart lg ⟨n, groups⟩ c part) →
        p.key = newAdded ∨ ∃ m ∈ Forest.nodes groups (.cons n children rest),
          p.key = m.id := by
      rintro ⟨c, part, hp⟩
      rcases key_of_isPart hp with hk | hk
      · exact Or.inr ⟨⟨n, groups⟩, by simp [Forest.nodes], hk⟩
      · exact Or.inl hk
    rw [layout, List.mem_append] at h
    rcases h with h | h
    · split at h
      · rename_i hg
        obtain ⟨i, -, h⟩ := List.mem_flatMap.mp h
        rcases List.mem_append.mp h with h | h
        · obtain ⟨part, hp⟩ := mem_groupPlaced (n := ⟨n, groups⟩) hg h
          exact own ⟨_, part, hp⟩
        · rcases ihc h with hk | ⟨m, hm, hk⟩
          · exact Or.inl hk
          · exact Or.inr ⟨m, by simp [Forest.nodes, hm], hk⟩
      · rename_i hg
        obtain ⟨c, -, part, hp⟩ := mem_leafPlaced (by simpa using hg) h
        exact own ⟨c, part, hp⟩
    · rcases ihr h with hk | ⟨m, hm, hk⟩
      · exact Or.inl hk
      · exact Or.inr ⟨m, by simp [Forest.nodes, hm], hk⟩

theorem exists_down (h : m ∈ f.nodes groups) :
    ∃ down : List Node, m.groups = down.reverse ++ groups := by
  induction f generalizing groups with
  | nil => simp [Forest.nodes] at h
  | cons n children rest ihc ihr =>
    rcases List.mem_cons.mp h with rfl | h
    · exact ⟨[], rfl⟩
    rcases List.mem_append.mp h with h | h
    · obtain ⟨down, hd⟩ := ihc h
      exact ⟨n :: down, by simpa using hd⟩
    · exact ihr h

/-- The groups below a level are told by the node: the same chain with one group more. -/
theorem down_cons {g : Node} {down' : List Node} (h : m.groups = down'.reverse ++ g :: groups)
    (hd : m.groups = down.reverse ++ groups) : down = g :: down' := by
  have he : down.reverse = (g :: down').reverse := by
    have hg : down.reverse ++ groups = (g :: down').reverse ++ groups := by
      rw [← hd, h]
      simp
    exact List.append_cancel_right hg
  exact List.reverse_injective he

theorem down_nil (h : m.groups = groups) (hd : m.groups = down.reverse ++ groups) :
    down = [] := by
  rw [h] at hd
  simpa using hd

/-- Every drop is its node's own, at a place reached through the groups around the node. -/
theorem mem_layout (h : p ∈ layout lg groups f b) :
    ∃ m ∈ f.nodes groups, ∃ down, m.groups = down.reverse ++ groups ∧
      ∃ is ∈ paths (bounds lg groups down), p ∈ ownPlaced lg m (descend lg groups b down is) := by
  induction f generalizing groups b with
  | nil => simp [layout] at h
  | cons n children rest ihc ihr =>
    have hown : p ∈ ownPlaced lg ⟨n, groups⟩ b →
        ∃ m ∈ Forest.nodes groups (.cons n children rest), ∃ down,
          m.groups = down.reverse ++ groups ∧ ∃ is ∈ paths (bounds lg groups down),
            p ∈ ownPlaced lg m (descend lg groups b down is) :=
      fun h => ⟨⟨n, groups⟩, by simp [Forest.nodes], [], rfl, [], by simp [paths, bounds], h⟩
    rw [layout, List.mem_append] at h
    rcases h with h | h
    · by_cases hg : n.isGroup = true
      · rw [if_pos hg] at h
        obtain ⟨i, hi, h⟩ := List.mem_flatMap.mp h
        rcases List.mem_append.mp h with h | h
        · refine hown ?_
          have hgroup : (⟨n, groups⟩ : LGNode).isGroup = true := hg
          rw [ownPlaced, if_pos hgroup]
          exact List.mem_flatMap.mpr ⟨i, hi, h⟩
        · obtain ⟨m, hm, down, hd, is, his, hp⟩ := ihc h
          refine ⟨m, by simp [Forest.nodes, hm], n :: down, by simpa using hd, i :: is, ?_, hp⟩
          simp only [bounds, if_pos hg, paths]
          exact List.mem_flatMap.mpr ⟨i, hi, List.mem_map.mpr ⟨is, his, rfl⟩⟩
      · rw [if_neg hg] at h
        refine hown ?_
        have hgroup : ¬ (⟨n, groups⟩ : LGNode).isGroup = true := hg
        rwa [ownPlaced, if_neg hgroup]
    · obtain ⟨m, hm, hrest⟩ := ihr h
      exact ⟨m, by simp [Forest.nodes, hm], hrest⟩

section OneNode

/-- The ids below a level differ from each other and from the common key. -/
structure DistinctIds (groups : List Node) (f : Forest) : Prop where
  nodup : ((f.nodes groups).map fun n => n.id).Nodup
  ne_newAdded : ∀ n ∈ f.nodes groups, n.id ≠ newAdded

variable {node : Node} {below others : Forest}

theorem DistinctIds.children (h : DistinctIds groups (.cons node below others)) :
    DistinctIds (node :: groups) below := by
  have hn := h.nodup
  simp only [Forest.nodes, List.map_cons, List.map_append, List.nodup_cons] at hn
  exact ⟨(List.nodup_append.mp hn.2).1, fun n hm => h.ne_newAdded n (by simp [Forest.nodes, hm])⟩

theorem DistinctIds.rest (h : DistinctIds groups (.cons node below others)) :
    DistinctIds groups others := by
  have hn := h.nodup
  simp only [Forest.nodes, List.map_cons, List.map_append, List.nodup_cons] at hn
  exact ⟨(List.nodup_append.mp hn.2).2.1, fun n hm => h.ne_newAdded n (by simp [Forest.nodes, hm])⟩

theorem DistinctIds.ne_children (h : DistinctIds groups (.cons node below others))
    (hm : m ∈ below.nodes (node :: groups)) : m.id ≠ node.id := by
  have hn := h.nodup
  simp only [Forest.nodes, List.map_cons, List.map_append, List.nodup_cons] at hn
  exact fun he => hn.1 (List.mem_append_left _ (List.mem_map.mpr ⟨m, hm, he⟩))

theorem DistinctIds.ne_rest (h : DistinctIds groups (.cons node below others))
    (hm : m ∈ others.nodes groups) : m.id ≠ node.id := by
  have hn := h.nodup
  simp only [Forest.nodes, List.map_cons, List.map_append, List.nodup_cons] at hn
  exact fun he => hn.1 (List.mem_append_right _ (List.mem_map.mpr ⟨m, hm, he⟩))

theorem DistinctIds.children_ne_rest (h : DistinctIds groups (.cons node below others))
    (hm : m ∈ below.nodes (node :: groups)) (hn : n ∈ others.nodes groups) :
    m.id ≠ n.id := by
  have hd := h.nodup
  simp only [Forest.nodes, List.map_cons, List.map_append, List.nodup_cons] at hd
  exact (List.nodup_append.mp hd.2).2.2 _ (List.mem_map.mpr ⟨m, hm, rfl⟩) _
    (List.mem_map.mpr ⟨n, hn, rfl⟩)

/-- Nothing below a level is kept under the key of a node elsewhere. -/
theorem filter_layout_eq_nil (lg : LG) (b : Place) {key : NodeId} (hk : key ≠ newAdded)
    (hf : ∀ n ∈ f.nodes groups, n.id ≠ key) :
    (layout lg groups f b).filter (fun p => p.key == key) = [] := by
  refine List.filter_eq_nil_iff.mpr fun p hp => ?_
  rcases key_layout hp with he | ⟨n, hn, he⟩
  · simp [he, hk.symm]
  · simp [he, hf n hn]

theorem filter_ownPlaced_eq_nil (lg : LG) (n : LGNode) (b : Place) {key : NodeId}
    (hk : key ≠ newAdded) (hn : n.id ≠ key) :
    (ownPlaced lg n b).filter (fun p => p.key == key) = [] := by
  refine List.filter_eq_nil_iff.mpr fun p hp => ?_
  have hkey : p.key = n.id ∨ p.key = newAdded := by
    unfold ownPlaced at hp
    split at hp
    · rename_i hg
      obtain ⟨i, -, hp⟩ := List.mem_flatMap.mp hp
      obtain ⟨part, hp⟩ := mem_groupPlaced hg hp
      exact key_of_isPart hp
    · rename_i hg
      obtain ⟨c, -, part, hp⟩ := mem_leafPlaced (by simpa using hg) hp
      exact key_of_isPart hp
  rcases hkey with he | he
  · simp [he, hn]
  · simp [he, hk.symm]

/-- The drops of one node in order: for each place around it, its own. -/
theorem filter_layout (hf : DistinctIds groups f) (hm : m ∈ f.nodes groups)
    (hd : m.groups = down.reverse ++ groups) :
    (layout lg groups f b).filter (fun p => p.key == m.id) =
      (paths (bounds lg groups down)).flatMap fun is =>
        (ownPlaced lg m (descend lg groups b down is)).filter fun p => p.key == m.id := by
  induction f generalizing groups b down with
  | nil => simp [Forest.nodes] at hm
  | cons n children rest ihc ihr =>
    have hk := hf.ne_newAdded m hm
    rw [layout, List.filter_append]
    rcases List.mem_cons.mp hm with rfl | hm
    · -- the node itself
      obtain rfl := down_nil rfl hd
      have hr := filter_layout_eq_nil lg b hk fun k hm => hf.ne_rest hm
      have hc : ∀ b, (layout lg (n :: groups) children b).filter
          (fun p => p.key == (⟨n, groups⟩ : LGNode).id) = [] :=
        fun b => filter_layout_eq_nil lg b hk fun k hm => hf.ne_children hm
      rw [hr, List.append_nil]
      simp only [bounds, paths, List.flatMap_cons, List.flatMap_nil, List.append_nil, descend,
        ownPlaced]
      by_cases hg : n.isGroup = true
      · have hgroup : (⟨n, groups⟩ : LGNode).isGroup = true := hg
        simp only [if_pos hg, if_pos hgroup, List.filter_flatMap, List.filter_append, hc,
          List.append_nil]
      · have hgroup : ¬ (⟨n, groups⟩ : LGNode).isGroup = true := hg
        simp only [if_neg hg, if_neg hgroup]
    · rcases List.mem_append.mp hm with hm | hm
      · -- a node further in
        obtain ⟨down', hd'⟩ := exists_down hm
        obtain rfl := down_cons hd' hd
        have hne : n.id ≠ m.id := (hf.ne_children hm).symm
        have hr := filter_layout_eq_nil lg b hk fun k hk' =>
          (hf.children_ne_rest hm hk').symm
        rw [hr, List.append_nil]
        by_cases hg : n.isGroup = true
        · have hown : ∀ i, (groupPlaced lg ⟨n, groups⟩ (enter lg ⟨n, groups⟩ b i).1).filter
              (fun p => p.key == m.id) = [] := by
            intro i
            refine List.filter_eq_nil_iff.mpr fun p hp => ?_
            obtain ⟨part, hp⟩ := mem_groupPlaced (n := ⟨n, groups⟩) hg hp
            rcases key_of_isPart hp with he | he
            · simpa [he] using hne
            · simpa [he] using hk.symm
          simp only [if_pos hg, List.filter_flatMap, List.filter_append, hown, List.nil_append,
            bounds, paths, List.flatMap_assoc, List.flatMap_map, descend]
          exact List.flatMap_congr fun i _ => ihc hf.children hm hd'
        · have hown := filter_ownPlaced_eq_nil lg ⟨n, groups⟩ b hk hne
          have hgroup : ¬ (⟨n, groups⟩ : LGNode).isGroup = true := hg
          rw [ownPlaced, if_neg hgroup] at hown
          simp [if_neg hg, hown, bounds, paths]
      · -- a node beside it
        have hne : n.id ≠ m.id := (hf.ne_rest hm).symm
        have hc : ∀ b, (layout lg (n :: groups) children b).filter
            (fun p => p.key == m.id) = [] :=
          fun b => filter_layout_eq_nil lg b hk fun k hk' => hf.children_ne_rest hk' hm
        have hown := filter_ownPlaced_eq_nil lg ⟨n, groups⟩ b hk hne
        rw [ihr hf.rest hm hd]
        by_cases hg : n.isGroup = true
        · have hgroup : (⟨n, groups⟩ : LGNode).isGroup = true := hg
          rw [ownPlaced, if_pos hgroup, List.filter_flatMap] at hown
          simp only [if_pos hg, List.filter_flatMap, List.filter_append, hc, List.append_nil]
          rw [hown, List.nil_append]
        · have hgroup : ¬ (⟨n, groups⟩ : LGNode).isGroup = true := hg
          rw [ownPlaced, if_neg hgroup] at hown
          rw [if_neg hg, hown, List.nil_append]

end OneNode

/-- Where a walk succeeds, a leaf has been made at every place around it. -/
theorem leafDrops_ok (h : lgnToPgn lg groups f b.1 b.2 = .ok placed) (hm : m ∈ f.nodes groups)
    (hd : m.groups = down.reverse ++ groups) (hl : m.isGroup = false) {is : List Nat}
    (his : is ∈ paths (bounds lg groups down)) :
    ∃ r, leafDrops lg m (descend lg groups b down is).1 (descend lg groups b down is).2 =
      .ok r := by
  induction f generalizing groups b placed down is with
  | nil => simp [Forest.nodes] at hm
  | cons n children rest ihc ihr =>
    obtain ⟨here, others, rfl, hothers, hgroup, hleaf⟩ := lgnToPgn_cons h
    rcases List.mem_cons.mp hm with rfl | hm
    · obtain rfl := down_nil rfl hd
      have hn : n.isGroup = false := hl
      exact ⟨here, by simpa [descend] using hleaf hn⟩
    rcases List.mem_append.mp hm with hm | hm
    · obtain ⟨down', hd'⟩ := exists_down hm
      obtain rfl := down_cons hd' hd
      obtain ⟨i, hi, his⟩ := List.mem_flatMap.mp his
      obtain ⟨js, hjs, rfl⟩ := List.mem_map.mp his
      have hg : n.isGroup = true := by
        by_contra hg
        simp [hg] at hi
      rw [if_pos hg] at hi
      obtain ⟨g, rfl, hmem⟩ := hgroup hg
      obtain ⟨own, below, -, -, hbelow⟩ := hmem i hi
      exact ihc hbelow hm hd' hjs
    · exact ihr hothers hm hd his

/-- What a node places somewhere is part of the whole. -/
theorem ownPlaced_subset (hm : m ∈ f.nodes groups) (hd : m.groups = down.reverse ++ groups)
    {is : List Nat} (his : is ∈ paths (bounds lg groups down)) :
    ownPlaced lg m (descend lg groups b down is) ⊆ layout lg groups f b := by
  induction f generalizing groups b down is with
  | nil => simp [Forest.nodes] at hm
  | cons n children rest ihc ihr =>
    intro p hp
    rw [layout, List.mem_append]
    rcases List.mem_cons.mp hm with rfl | hm
    · left
      obtain rfl := down_nil rfl hd
      unfold ownPlaced at hp
      split at hp
      · rename_i hg
        obtain ⟨i, hi, hp⟩ := List.mem_flatMap.mp hp
        have hgroup : n.isGroup = true := hg
        rw [if_pos hgroup]
        exact List.mem_flatMap.mpr ⟨i, hi, List.mem_append_left _ hp⟩
      · rename_i hg
        have hgroup : ¬ n.isGroup = true := hg
        rw [if_neg hgroup]
        exact hp
    rcases List.mem_append.mp hm with hm | hm
    · left
      obtain ⟨down', hd'⟩ := exists_down hm
      obtain rfl := down_cons hd' hd
      obtain ⟨i, hi, his⟩ := List.mem_flatMap.mp his
      obtain ⟨js, hjs, rfl⟩ := List.mem_map.mp his
      have hg : n.isGroup = true := by
        by_contra hg
        simp [hg] at hi
      rw [if_pos hg] at hi ⊢
      exact List.mem_flatMap.mpr ⟨i, hi, List.mem_append_right _ (ihc hm hd' hjs hp)⟩
    · exact Or.inr (ihr hm hd his hp)

/-- The groups around a node are nodes themselves. -/
theorem mem_nodes_of_groups {g : Node} {xs gs : List Node} (hm : m ∈ f.nodes groups)
    (h : m.groups = xs ++ g :: gs) (hg : groups <:+ gs) : ⟨g, gs⟩ ∈ f.nodes groups := by
  induction f generalizing groups with
  | nil => simp [Forest.nodes] at hm
  | cons n children rest ihc ihr =>
    rcases List.mem_cons.mp hm with rfl | hm
    · have hl := congrArg List.length h
      have hle := hg.length_le
      simp at hl
      omega
    rcases List.mem_append.mp hm with hm | hm
    · obtain ⟨down, hd⟩ := exists_down hm
      have hn : (n :: groups) <:+ m.groups := ⟨_, hd.symm⟩
      have hgs : (g :: gs) <:+ m.groups := ⟨_, h.symm⟩
      rcases List.suffix_cons_iff.mp (List.suffix_of_suffix_length_le hn hgs
        (by simpa using hg.length_le)) with he | hs
      · cases he
        simp [Forest.nodes]
      · simp [Forest.nodes, ihc hm hs]
    · simp [Forest.nodes, ihr hm hg]

/-! The start list. -/

theorem startList_sublist : (f.startList.nodes groups).Sublist (f.nodes groups) := by
  induction f generalizing groups with
  | nil => exact List.Sublist.refl _
  | cons n children rest _ ihr =>
    simp only [Forest.startList]
    split
    · exact (ihr.trans (List.sublist_append_right _ _)).cons _
    · exact (List.Sublist.append (List.Sublist.refl _) ihr).cons_cons _

/-- The nodes the walks reach. -/
def LogicalGraph.started (lg : LogicalGraph) : List LGNode := lg.forest.startList.nodes []

theorem mem_nodes_of_started {g : LogicalGraph} (h : n ∈ g.started) : n ∈ g.nodes :=
  startList_sublist.subset h

theorem distinctIds_started (g : LogicalGraph) : DistinctIds [] g.forest.startList :=
  ⟨g.ids_nodup.sublist (startList_sublist.map _),
    fun n hn => g.ids_ne_newAdded n (startList_sublist.subset hn)⟩

/-- Nodes are told apart by their ids. -/
theorem eq_of_id {g : LogicalGraph} (hm : m ∈ g.nodes) (hn : n ∈ g.nodes)
    (h : m.id = n.id) : m = n :=
  List.inj_on_of_nodup_map g.ids_nodup hm hn h

/-- Where the ids differ as texts, nodes are told apart by these. -/
theorem eq_of_id_text {g : LogicalGraph} (ht : g.TextsApart) (hm : m ∈ g.nodes) (hn : n ∈ g.nodes)
    (h : m.id.text = n.id.text) : m = n :=
  List.inj_on_of_nodup_map ht hm hn h

/-- A group around a node has its own id, different from the group around that group. -/
theorem id_ne_of_groups {g : LogicalGraph} {a c : Node} {xs ys gs : List Node} (hm : m ∈ g.nodes)
    (h : m.groups = xs ++ a :: (ys ++ c :: gs)) : a.id ≠ c.id := by
  have ha := mem_nodes_of_groups hm h List.nil_suffix
  have hx : m.groups = (xs ++ a :: ys) ++ c :: gs := by simpa using h
  have hc := mem_nodes_of_groups hm hx List.nil_suffix
  intro he
  have := eq_of_id ha hc he
  have hl := congrArg (fun k : LGNode => k.groups.length) this
  simp at hl
  omega

theorem path_instanceOf {c : InstanceId} {shape : Option (List Nat)} {i : Nat} :
    (instanceOf c shape i).path = c.path ++ [i] := by
  cases shape <;> rfl

/-- The path of a place is the index tuple it was reached by. -/
theorem path_descend {is : List Nat} (h : is.length = down.length) :
    (descend lg groups b down is).1.path = b.1.path ++ is := by
  induction down generalizing groups b is with
  | nil => cases is <;> simp_all [descend]
  | cons g down ih =>
    cases is with
    | nil => simp at h
    | cons i is => simp [descend, ih (by simpa using h), enter, path_instanceOf]

theorem descend_append {down' : List Node} {is js : List Nat} (h : is.length = down.length) :
    descend lg groups b (down ++ down') (is ++ js) =
      descend lg (down.reverse ++ groups) (descend lg groups b down is) down' js := by
  induction down generalizing groups b is with
  | nil =>
    obtain rfl : is = [] := by simpa using h
    cases down' <;> cases js <;> rfl
  | cons g down ih =>
    cases is with
    | nil => simp at h
    | cons i is =>
      simp only [List.cons_append, descend, List.reverse_cons, List.append_assoc]
      exact ih (by simpa using h)

theorem bounds_append {down' : List Node} :
    bounds lg groups (down ++ down') =
      bounds lg groups down ++ bounds lg (down.reverse ++ groups) down' := by
  induction down generalizing groups with
  | nil => rfl
  | cons g down ih => simp [bounds, ih]

theorem length_bounds : (bounds lg groups down).length = down.length := by
  induction down generalizing groups with
  | nil => rfl
  | cons g down ih => simp [bounds, ih]

end Daliuge.Unroll
