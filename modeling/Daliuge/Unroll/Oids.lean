import Daliuge.Lib.Text
import Daliuge.Unroll.Layout
import Daliuge.Unroll.Ledger

/-!
# Drop ids

An oid is a text: session, node id and coordinate, joined by separators. It can be read back:
the last underscore ends the node id, and the indices of a coordinate come one after the other
from its start.
-/
namespace Daliuge.Unroll

open Enumeration Collect Text

variable {lg : LG} {n m : LGNode} {c c' : InstanceId} {b : Place} {groups down : List Node}
  {f : Forest} {p q : Placed} {i j : Nat} {is js : List Nat}

/-! The characters of a coordinate. -/

/-- Digits, dashes and dollars. -/
def isWireChar (x : Char) : Bool := x.isDigit || x == '-' || x == '$'

theorem wire_child (c : InstanceId) (i : Nat) :
    (c.child i).wire.toList = c.wire.toList ++ '-' :: i.repr.toList := by
  simp [InstanceId.child]

theorem wire_withGroupKey (c : InstanceId) (key : List Nat) :
    (c.withGroupKey key).wire.toList =
      c.wire.toList ++ '$' :: ("-".intercalate (key.map toString)).toList := by
  simp [InstanceId.withGroupKey]

theorem wireChars_root : ∀ x ∈ InstanceId.root.wire.toList, isWireChar x = true := by
  simp [InstanceId.root, isWireChar]

theorem wireChars_child (h : ∀ x ∈ c.wire.toList, isWireChar x = true) :
    ∀ x ∈ (c.child i).wire.toList, isWireChar x = true := by
  intro x hx
  rw [wire_child, List.mem_append, List.mem_cons] at hx
  rcases hx with hx | rfl | hx
  · exact h x hx
  · rfl
  · simp [isWireChar, isDigit_of_mem_repr hx]

theorem wireChars_instanceOf {shape : Option (List Nat)}
    (h : ∀ x ∈ c.wire.toList, isWireChar x = true) :
    ∀ x ∈ (instanceOf c shape i).wire.toList, isWireChar x = true := by
  cases shape with
  | none => exact wireChars_child h
  | some shape =>
    intro x hx
    simp only [instanceOf] at hx
    rw [wire_withGroupKey, List.mem_append, List.mem_cons] at hx
    rcases hx with hx | rfl | hx
    · exact wireChars_child h x hx
    · rfl
    · rcases mem_dashed hx with hd | rfl
      · simp [isWireChar, hd]
      · rfl

theorem wireChars_descend (h : ∀ x ∈ b.1.wire.toList, isWireChar x = true) :
    ∀ x ∈ (descend lg groups b down is).1.wire.toList, isWireChar x = true := by
  induction down generalizing groups b is with
  | nil => simpa [descend] using h
  | cons g down ih =>
    cases is with
    | nil => simpa [descend] using h
    | cons i is => exact ih (wireChars_instanceOf h)

/-! Reading a coordinate back, from its start: a GroupBy has its keys in the text at some places
and not at others, so the separators from the end do not tell the indices. -/

/-- A coordinate's text goes on with that of another one, and not inside a number. -/
def Continues (c c' : InstanceId) : Prop :=
  ∃ t, c'.wire.toList = c.wire.toList ++ t ∧ NoDigitFirst t

theorem Continues.refl (c : InstanceId) : Continues c c := ⟨[], by simp, by simp [NoDigitFirst]⟩

theorem Continues.trans {c'' : InstanceId} (h : Continues c c') (h' : Continues c' c'') :
    Continues c c'' := by
  obtain ⟨t, ht, hd⟩ := h
  obtain ⟨t', ht', hd'⟩ := h'
  exact ⟨t ++ t', by rw [ht', ht, List.append_assoc], noDigitFirst_append hd hd'⟩

theorem continues_child (c : InstanceId) (i : Nat) : Continues c (c.child i) :=
  ⟨_, wire_child c i, by simp [NoDigitFirst]⟩

theorem continues_instanceOf (c : InstanceId) (shape : Option (List Nat)) (i : Nat) :
    Continues (c.child i) (instanceOf c shape i) := by
  cases shape with
  | none => exact .refl _
  | some shape => exact ⟨_, wire_withGroupKey _ _, by simp [NoDigitFirst]⟩

theorem continues_enter (n : LGNode) (b : Place) (i : Nat) :
    Continues (b.1.child i) (enter lg n b i).1 := continues_instanceOf _ _ _

theorem continues_descend : Continues b.1 (descend lg groups b down is).1 := by
  induction down generalizing groups b is with
  | nil => exact .refl _
  | cons g down ih =>
    cases is with
    | nil => exact .refl _
    | cons i is => exact ((continues_child b.1 i).trans (continues_enter _ b i)).trans ih

/-- The index that follows a coordinate can be read off all texts that go on from there. -/
theorem index_eq {d d' : InstanceId} (hd : Continues (c.child i) d)
    (hd' : Continues (c.child j) d') (h : d.wire.toList = d'.wire.toList) : i = j := by
  obtain ⟨t, ht, hf⟩ := hd
  obtain ⟨t', ht', hf'⟩ := hd'
  rw [ht, ht', wire_child, wire_child, List.append_assoc, List.append_assoc] at h
  exact repr_append_inj hf hf' (List.cons.inj (List.append_cancel_left h)).2

theorem descend_snoc {g : Node} (h : is.length = down.length) :
    descend lg groups b (down ++ [g]) (is ++ [i]) =
      enter lg ⟨g, down.reverse ++ groups⟩ (descend lg groups b down is) i :=
  descend_append h

/-- Along one chain of groups a text determines the index tuple of the place it goes on from. -/
theorem descend_inj (hi : is.length = down.length) (hj : js.length = down.length)
    (hc : Continues (descend lg groups b down is).1 c)
    (hc' : Continues (descend lg groups b down js).1 c')
    (h : c.wire.toList = c'.wire.toList) : is = js := by
  induction down generalizing groups b is js with
  | nil => rw [List.length_eq_zero_iff.mp hi, List.length_eq_zero_iff.mp hj]
  | cons g down ih =>
    obtain ⟨i, is, rfl⟩ := List.exists_cons_of_length_eq_add_one hi
    obtain ⟨j, js, rfl⟩ := List.exists_cons_of_length_eq_add_one hj
    have hd : Continues (b.1.child i) c :=
      ((continues_enter ⟨g, groups⟩ b i).trans continues_descend).trans hc
    have hd' : Continues (b.1.child j) c' :=
      ((continues_enter ⟨g, groups⟩ b j).trans continues_descend).trans hc'
    obtain rfl := index_eq hd hd' h
    rw [ih (by simpa using hi) (by simpa using hj) hc hc']

/-! Reading an oid back. -/

/-- The coordinates of a node's own drops at one place. -/
def ownCoords (lg : LG) (n : LGNode) (b : Place) : List InstanceId :=
  if n.isGroup then (List.range (lg.copies n)).map fun i => (enter lg n b i).1
  else leafCoords lg n b.1

theorem mem_ownPlaced (h : p ∈ ownPlaced lg n b) : ∃ c ∈ ownCoords lg n b, ∃ m : Made,
    m.From lg n c ∧ p ∈ m.place n.id (m.generated n) ∧
      m.place n.id (m.generated n) ⊆ ownPlaced lg n b := by
  unfold ownPlaced at h ⊢
  unfold ownCoords
  split at h
  · rename_i hg
    simp only [hg, if_true]
    obtain ⟨i, hi, h⟩ := List.mem_flatMap.mp h
    rcases groupPlaced_isPlacing lg hg (enter lg n b i).1 with he | ⟨m, hm, he⟩
    · simp [he] at h
    · refine ⟨_, List.mem_map.mpr ⟨i, hi, rfl⟩, m, hm, he ▸ h, fun q hq => ?_⟩
      exact List.mem_flatMap.mpr ⟨i, hi, he ▸ hq⟩
  · rename_i hg
    have hleaf : n.isGroup = false := by simpa using hg
    obtain ⟨f, hf, hc⟩ := leafPlaced_isPlacing lg hleaf b
    rw [hf] at h
    simp only [hleaf, hf]
    obtain ⟨c, hmem, h⟩ := List.mem_flatMap.mp h
    rcases hc c hmem with he | ⟨m, hm, he⟩
    · simp [he] at h
    · refine ⟨c, hmem, m, hm, he ▸ h, fun q hq => ?_⟩
      exact List.mem_flatMap.mpr ⟨c, hmem, he ▸ hq⟩

theorem continues_ownCoords (hc : c ∈ ownCoords lg n b) : Continues b.1 c := by
  unfold ownCoords at hc
  split at hc
  · obtain ⟨i, -, rfl⟩ := List.mem_map.mp hc
    exact (continues_child b.1 i).trans (continues_enter n b i)
  · unfold leafCoords at hc
    split at hc
    · obtain ⟨i, -, rfl⟩ := List.mem_map.mp hc
      exact continues_child b.1 i
    · obtain rfl := List.mem_singleton.mp hc
      exact .refl _

/-- Own coordinates at places of one chain with the same text are the same. -/
theorem ownCoords_inj (hi : is.length = down.length) (hj : js.length = down.length)
    (hc : c ∈ ownCoords lg n (descend lg groups b down is))
    (hc' : c' ∈ ownCoords lg n (descend lg groups b down js))
    (h : c.wire.toList = c'.wire.toList) : c = c' := by
  obtain rfl := descend_inj hi hj (continues_ownCoords hc) (continues_ownCoords hc') h
  unfold ownCoords at hc hc'
  split at hc
  · rename_i hg
    rw [if_pos hg] at hc'
    obtain ⟨i, -, rfl⟩ := List.mem_map.mp hc
    obtain ⟨j, -, rfl⟩ := List.mem_map.mp hc'
    rw [index_eq (continues_enter n _ i) (continues_enter n _ j) h]
  · rename_i hg
    rw [if_neg hg] at hc'
    unfold leafCoords at hc hc'
    split at hc
    · rename_i hm
      rw [if_pos hm] at hc'
      obtain ⟨i, -, rfl⟩ := List.mem_map.mp hc
      obtain ⟨j, -, rfl⟩ := List.mem_map.mp hc'
      rw [index_eq (.refl _) (.refl _) h]
    · rename_i hm
      rw [if_neg hm] at hc'
      obtain rfl := List.mem_singleton.mp hc
      exact (List.mem_singleton.mp hc').symm

theorem wireChars_ownCoords (h : ∀ x ∈ b.1.wire.toList, isWireChar x = true)
    (hc : c ∈ ownCoords lg n b) : ∀ x ∈ c.wire.toList, isWireChar x = true := by
  unfold ownCoords at hc
  split at hc
  · obtain ⟨i, -, rfl⟩ := List.mem_map.mp hc
    exact wireChars_instanceOf h
  · unfold leafCoords at hc
    split at hc
    · obtain ⟨i, -, rfl⟩ := List.mem_map.mp hc
      exact wireChars_child h
    · obtain rfl := List.mem_singleton.mp hc
      exact h

/-- A coordinate has no letters, so the letters of an oid's tail tell the part. -/
theorem wire_ending_inj {part part' : Part} (hc : ∀ x ∈ c.wire.toList, isWireChar x = true)
    (hc' : ∀ x ∈ c'.wire.toList, isWireChar x = true)
    (h : c.wire.toList ++ part.ending.toList = c'.wire.toList ++ part'.ending.toList) :
    part = part' ∧ c.wire.toList = c'.wire.toList := by
  have hfilter : ∀ l : List Char, (∀ x ∈ l, isWireChar x = true) →
      l.filter (fun x => !isWireChar x) = [] := by
    intro l hl
    exact List.filter_eq_nil_iff.mpr fun x hx => by simp [hl x hx]
  have hl := congrArg (List.filter fun x => !isWireChar x) h
  rw [List.filter_append, List.filter_append, hfilter _ hc, hfilter _ hc'] at hl
  have hp : part = part' := by
    cases part <;> cases part' <;> first | rfl | exact absurd hl (by decide)
  subst hp
  exact ⟨rfl, List.append_cancel_right h⟩

theorem underscore_not_mem {part : Part} (hc : ∀ x ∈ c.wire.toList, isWireChar x = true) :
    '_' ∉ c.wire.toList ++ part.ending.toList := by
  intro h
  rcases List.mem_append.mp h with h | h
  · exact absurd (hc _ h) (by decide)
  · revert h
    cases part <;> decide

/-- Equal oids come from the same node, up to the coordinate's text and the part. -/
theorem oid_inj {g : LogicalGraph} {part part' : Part}
    (hc : ∀ x ∈ c.wire.toList, isWireChar x = true)
    (hc' : ∀ x ∈ c'.wire.toList, isWireChar x = true)
    (h : g.makeOid n.id c ++ part.ending = g.makeOid m.id c' ++ part'.ending) :
    n.id.text = m.id.text ∧ part = part' ∧ c.wire.toList = c'.wire.toList := by
  have hl := congrArg String.toList h
  simp only [LogicalGraph.makeOid, String.toList_append, List.append_assoc] at hl
  have hl := List.append_cancel_left (List.append_cancel_left hl)
  have hu : ("_" : String).toList = ['_'] := rfl
  rw [hu] at hl
  simp only [List.singleton_append] at hl
  obtain ⟨hid, htail⟩ := append_cons_inj hl (underscore_not_mem hc) (underscore_not_mem hc')
  obtain ⟨hp, hw⟩ := wire_ending_inj hc hc' htail
  exact ⟨String.toList_inj.mp hid, hp, hw⟩

/-- Every drop is a part of an instance of its node, under the place it was reached by. -/
theorem isPart_of_mem_layout (h : p ∈ layout lg groups f b) :
    ∃ m ∈ f.nodes groups, ∃ down, m.groups = down.reverse ++ groups ∧
      ∃ is, is.length = down.length ∧
      ∃ c ∈ ownCoords lg m (descend lg groups b down is), ∃ part, p.IsPart lg m c part := by
  obtain ⟨m, hm, down, hd, is, his, hp⟩ := mem_layout h
  have hl : is.length = down.length := by rw [length_of_mem_paths his, length_bounds]
  obtain ⟨c, hc, made, hmade, hp, -⟩ := mem_ownPlaced hp
  exact ⟨m, hm, down, hd, is, hl, c, hc, isPart_of_mem_place hmade hp⟩

/-- The instances of a node: the coordinates its own drops have. -/
def IsInstance (lg : LG) (n : LGNode) (c : InstanceId) : Prop :=
  n ∈ lg.graph.started ∧ ∃ is, is.length = n.groups.length ∧
    c ∈ ownCoords lg n (descend lg [] (.root, none) n.groups.reverse is)

/-- A drop is placed together with what was made at the same instance. -/
theorem placing_of_mem_placed {placed : List Placed} (hi : instantiate lg = .ok placed)
    (hp : p ∈ placed) : ∃ n c, IsInstance lg n c ∧ ∃ m : Made, m.From lg n c ∧
      p ∈ m.place n.id (m.generated n) ∧ m.place n.id (m.generated n) ⊆ placed := by
  rw [lgnToPgn_eq_layout (b := (.root, none)) hi] at hp ⊢
  obtain ⟨m, hm, down, hd, is, his, hown⟩ := mem_layout hp
  have hl : is.length = down.length := by rw [length_of_mem_paths his, length_bounds]
  obtain rfl : down = m.groups.reverse := by simp [hd]
  obtain ⟨c, hc, made, hmade, hplace, hs⟩ := mem_ownPlaced hown
  exact ⟨m, c, ⟨hm, is, by simpa using hl, hc⟩, made, hmade, hplace,
    List.Subset.trans hs (ownPlaced_subset hm hd his)⟩

theorem isPart_of_mem_placed {placed : List Placed} (hi : instantiate lg = .ok placed)
    (hp : p ∈ placed) : ∃ n c part, IsInstance lg n c ∧ p.IsPart lg n c part := by
  obtain ⟨n, c, hc, m, hm, hp, -⟩ := placing_of_mem_placed hi hp
  obtain ⟨part, hpart⟩ := isPart_of_mem_place hm hp
  exact ⟨n, c, part, hc, hpart⟩

/-- Drops of one oid are the same part of instances with the same text. -/
theorem texts_of_oid_eq {part part' : Part} {d d' : Drop} (hn : IsInstance lg n c)
    (hm : IsInstance lg m c') (hd : d.IsPart lg n c part) (hd' : d'.IsPart lg m c' part')
    (h : d.oid = d'.oid) :
    n.id.text = m.id.text ∧ part = part' ∧ c.wire.toList = c'.wire.toList := by
  obtain ⟨-, is, -, hc⟩ := hn
  obtain ⟨-, js, -, hc'⟩ := hm
  have hw := wireChars_ownCoords (wireChars_descend wireChars_root) hc
  have hw' := wireChars_ownCoords (wireChars_descend wireChars_root) hc'
  rw [hd.oid, hd'.oid] at h
  exact oid_inj hw hw' h

/-- Where the ids differ as texts, the oid tells which part of which instance it is. -/
theorem part_eq_of_oid_eq {part part' : Part} {d d' : Drop} (ht : lg.graph.TextsApart)
    (hn : IsInstance lg n c) (hm : IsInstance lg m c') (hd : d.IsPart lg n c part)
    (hd' : d'.IsPart lg m c' part') (h : d.oid = d'.oid) : n = m ∧ c = c' ∧ part = part' := by
  obtain ⟨hid, rfl, hwire⟩ := texts_of_oid_eq hn hm hd hd' h
  obtain ⟨hn, is, hi, hc⟩ := hn
  obtain ⟨hm, js, hj, hc'⟩ := hm
  obtain rfl := eq_of_id_text ht (mem_nodes_of_started hn) (mem_nodes_of_started hm) hid
  exact ⟨rfl, ownCoords_inj (by simpa using hi) (by simpa using hj) hc hc' hwire, rfl⟩

/-! Every drop is made once. -/

theorem nodup_placing {l : List Placed} (h : IsPlacing lg n c l) :
    (l.map fun p => p.drop.ident).Nodup := by
  rcases h with rfl | ⟨m, hm, rfl⟩
  · simp
  · cases hg : m.generated n with
    | none => simp [Made.place]
    | some d =>
      obtain ⟨part, hne, hd⟩ := generated_isPart hm hg
      simpa [Made.place, hm.main.ident, hd.ident] using hne.symm

/-- Placings at different coordinates together. -/
theorem nodup_placings {cs : List InstanceId} {g : InstanceId → List Placed} (hcs : cs.Nodup)
    (h : ∀ c ∈ cs, IsPlacing lg n c (g c)) :
    ((cs.flatMap g).map fun p => p.drop.ident).Nodup := by
  rw [List.map_flatMap, List.nodup_flatMap]
  refine ⟨fun c hc => nodup_placing (h c hc), ?_⟩
  refine hcs.imp_of_mem fun {c c'} hc hc' hne => ?_
  intro x hx hx'
  obtain ⟨p, hp, rfl⟩ := List.mem_map.mp hx
  obtain ⟨q, hq, he⟩ := List.mem_map.mp hx'
  obtain ⟨part, hpart⟩ := isPart_of_isPlacing (h c hc) hp
  obtain ⟨part', hpart'⟩ := isPart_of_isPlacing (h c' hc') hq
  rw [hpart.drop.ident, hpart'.drop.ident] at he
  simp only [Ident.made.injEq] at he
  exact hne he.2.1.symm

theorem path_ownCoords (hc : c ∈ ownCoords lg n b) : b.1.path <+: c.path := by
  unfold ownCoords at hc
  split at hc
  · obtain ⟨i, -, rfl⟩ := List.mem_map.mp hc
    exact ⟨[i], path_instanceOf.symm⟩
  · unfold leafCoords at hc
    split at hc
    · obtain ⟨i, -, rfl⟩ := List.mem_map.mp hc
      exact ⟨[i], rfl⟩
    · obtain rfl := List.mem_singleton.mp hc
      exact List.prefix_rfl

theorem ident_layout (h : p ∈ layout lg groups f b) :
    ∃ m ∈ f.nodes groups, ∃ c part, p.drop.ident = .made m.id c part ∧ b.1.path <+: c.path := by
  obtain ⟨m, hm, down, -, is, hl, c, hc, part, hpart⟩ := isPart_of_mem_layout h
  have hp := path_ownCoords hc
  rw [path_descend hl] at hp
  exact ⟨m, hm, c, part, hpart.drop.ident, (List.prefix_append _ _).trans hp⟩

theorem nodup_leafCoords (lg : LG) (n : LGNode) (c : InstanceId) : (leafCoords lg n c).Nodup := by
  unfold leafCoords
  split
  · refine List.nodup_range.map fun i j h => ?_
    have hp := congrArg InstanceId.path h
    simpa [InstanceId.child] using hp
  · simp

theorem nodup_layout (hf : DistinctIds groups f) :
    ((layout lg groups f b).map fun p => p.drop.ident).Nodup := by
  induction f generalizing groups b with
  | nil => simp [layout]
  | cons n children rest ihc ihr =>
    rw [layout, List.map_append, List.nodup_append']
    have own : ∀ {p : Placed} {c part}, p.IsPart lg ⟨n, groups⟩ c part →
        p.drop.ident = .made n.id c part := fun h => h.drop.ident
    refine ⟨?_, ihr hf.rest, ?_⟩
    · cases hg : n.isGroup with
      | false =>
        obtain ⟨g, hl, hc⟩ := leafPlaced_isPlacing lg (n := ⟨n, groups⟩) hg b
        simp only [Bool.false_eq_true, if_false, hl]
        exact nodup_placings (nodup_leafCoords _ _ _) hc
      | true =>
        simp only [if_true, List.map_flatMap]
        refine List.nodup_flatMap.mpr ⟨fun i _ => ?_, List.nodup_range.imp_of_mem ?_⟩
        · -- the group's own drops at one instance, and those further in
          rw [List.map_append, List.nodup_append']
          refine ⟨nodup_placing (groupPlaced_isPlacing lg (n := ⟨n, groups⟩) hg _), ihc hf.children,
            ?_⟩
          intro x hx hx'
          obtain ⟨p, hp, rfl⟩ := List.mem_map.mp hx
          obtain ⟨q, hq, he⟩ := List.mem_map.mp hx'
          obtain ⟨part, hpart⟩ := mem_groupPlaced (n := ⟨n, groups⟩) hg hp
          obtain ⟨m, hm, c, part', hi, -⟩ := ident_layout hq
          rw [own hpart, hi] at he
          exact hf.ne_children hm (Ident.made.inj he).1
        · -- two instances differ in the path
          intro i j _ _ hij x hx hx'
          have hpath : ∀ k x, x ∈ (groupPlaced lg ⟨n, groups⟩ (enter lg ⟨n, groups⟩ b k).1 ++
              layout lg (n :: groups) children (enter lg ⟨n, groups⟩ b k)).map
                (fun p => p.drop.ident) →
              ∃ id c part, x = .made id c part ∧ b.1.path ++ [k] <+: c.path := by
            intro k x hx
            obtain ⟨p, hp, rfl⟩ := List.mem_map.mp hx
            rcases List.mem_append.mp hp with hp | hp
            · obtain ⟨part, hpart⟩ := mem_groupPlaced (n := ⟨n, groups⟩) hg hp
              refine ⟨n.id, _, part, own hpart, ?_⟩
              simp [enter, path_instanceOf]
            · obtain ⟨m, -, c, part, hi, hpre⟩ := ident_layout hp
              refine ⟨m.id, c, part, hi, ?_⟩
              simpa [enter, path_instanceOf] using hpre
          obtain ⟨id, c, part, rfl, hi⟩ := hpath i x hx
          obtain ⟨id', c', part', he, hj⟩ := hpath j _ hx'
          obtain ⟨-, rfl, -⟩ := Ident.made.inj he
          have := List.prefix_of_prefix_length_le hi hj (by simp)
          exact hij (by simpa using this.eq_of_length (by simp))
    · -- the node with what is inside it, and the nodes beside it
      intro x hx hx'
      obtain ⟨q, hq, he⟩ := List.mem_map.mp hx'
      obtain ⟨m, hm, c, part, hi, -⟩ := ident_layout hq
      obtain ⟨p, hp, rfl⟩ := List.mem_map.mp hx
      rw [hi] at he
      split at hp
      · rename_i hg
        obtain ⟨i, -, hp⟩ := List.mem_flatMap.mp hp
        rcases List.mem_append.mp hp with hp | hp
        · obtain ⟨part, hpart⟩ := mem_groupPlaced (n := ⟨n, groups⟩) hg hp
          rw [own hpart] at he
          exact hf.ne_rest hm (Ident.made.inj he).1
        · obtain ⟨k, hk, c, part, hi, -⟩ := ident_layout hp
          rw [hi] at he
          exact hf.children_ne_rest hk hm (Ident.made.inj he).1.symm
      · rename_i hg
        obtain ⟨c, -, part, hpart⟩ := mem_leafPlaced (n := ⟨n, groups⟩) (by simpa using hg) hp
        rw [own hpart] at he
        exact hf.ne_rest hm (Ident.made.inj he).1

/-- No two drops of the nodes have the same oid. -/
theorem nodup_oids {placed : List Placed} (ht : lg.graph.TextsApart)
    (h : instantiate lg = .ok placed) : (placed.map fun p => p.drop.oid).Nodup := by
  have hn : (placed.map fun p => p.drop.ident).Nodup := by
    rw [lgnToPgn_eq_layout (b := (.root, none)) h]
    exact nodup_layout (distinctIds_started lg.graph)
  refine List.pairwise_map.mpr ((List.pairwise_map.mp hn).imp_of_mem fun {p q} hm hm' hne he => ?_)
  obtain ⟨n, c, part, hn, hpart⟩ := isPart_of_mem_placed h hm
  obtain ⟨m, c', part', hm, hpart'⟩ := isPart_of_mem_placed h hm'
  obtain ⟨rfl, rfl, rfl⟩ := part_eq_of_oid_eq ht hn hm hpart.drop hpart'.drop he
  exact hne (hpart.drop.ident.trans hpart'.drop.ident.symm)

/-- Where the ids differ as texts, no two drops of a template have the same oid, stream bridges
aside. -/
theorem unroll_nodup_oids {g : LogicalGraph} {tpl : Template} (ht : g.TextsApart)
    (h : g.unroll = .ok tpl) :
    ((tpl.drops.filter fun d => !d.ident.isBridge).map Drop.oid).Nodup := by
  obtain ⟨lg, placed, xs, deleted, -, hu⟩ := unroll_ok h
  have ht' : lg.graph.TextsApart := hu.graph ▸ ht
  have hb : (finalLedger lg placed xs).bridges.filter (fun d => !d.ident.isBridge) = [] := by
    refine List.filter_eq_nil_iff.mpr fun b hb => ?_
    rcases mem_bridges hb with hb | ⟨s, t, n, -, rfl, -⟩
    · simp [startLedger] at hb
    · simp [bridgeDrop, Ident.isBridge]
  have hn : ((placed.map Placed.drop).map Drop.oid).Nodup := by
    simpa [Function.comp_def] using nodup_oids ht' hu.instantiated
  rw [hu.drops, List.filter_append, hb, List.append_nil]
  refine hn.sublist (List.Sublist.map _ ?_)
  exact List.filter_sublist.trans (List.filter_sublist.map _)

/-- Data in a Scatter of two in a Scatter of two, grouped by both. -/
def groupedData : LogicalGraph where
  sessionId := "s"
  forest :=
    .cons { id := .int 1, category := .scatter, categoryType := .construct, isGroup := true
            keys := [("num_of_copies", .int 2)] }
      (.cons { id := .int 2, category := .scatter, categoryType := .construct, isGroup := true
               keys := [("num_of_copies", .int 2)] }
        (.cons { id := .int 3, category := .file, categoryType := .data } .nil .nil) .nil)
      (.cons { id := .int 4, category := .groupBy, categoryType := .construct, isGroup := true
               keys := [("group_key", .text "1,2")] } .nil .nil)
  links := [{ source := .int 3, target := .int 4 }]
  ids_nodup := by decide
  ids_ne_newAdded := by decide

theorem unroll_nodup_oids_groupedData : ∃ tpl, groupedData.unroll = .ok tpl ∧
    ((tpl.drops.filter fun d => !d.ident.isBridge).map Drop.oid).Nodup := by
  obtain ⟨tpl, h⟩ : ∃ tpl, groupedData.unroll = .ok tpl := ⟨_, rfl⟩
  exact ⟨tpl, h, unroll_nodup_oids (by decide) h⟩

/-- Data nodes with the ids 1 and "1". -/
def sameTexts : LogicalGraph where
  sessionId := "s"
  forest :=
    .cons { id := .int 1, category := .file, categoryType := .data } .nil
      (.cons { id := .str "1", category := .file, categoryType := .data } .nil .nil)
  links := []
  ids_nodup := by decide
  ids_ne_newAdded := by decide

/-- Their drops have one oid. -/
theorem sameTexts_one_oid : ∃ tpl, sameTexts.unroll = .ok tpl ∧
    tpl.drops.map Drop.oid = ["s_1_0", "s_1_0"] ∧
    ¬ ((tpl.drops.filter fun d => !d.ident.isBridge).map Drop.oid).Nodup := by
  obtain ⟨tpl, h⟩ : ∃ tpl, sameTexts.unroll = .ok tpl := ⟨_, rfl⟩
  have hoids : sameTexts.unroll.toOption.map (fun tpl => (tpl.drops.map Drop.oid,
      (tpl.drops.filter fun d => !d.ident.isBridge).map Drop.oid)) =
        some (["s_1_0", "s_1_0"], ["s_1_0", "s_1_0"]) := by decide +kernel
  simp only [h, Except.toOption, Option.map_some, Option.some.injEq, Prod.mk.injEq] at hoids
  exact ⟨tpl, h, hoids.1, by rw [hoids.2]; decide⟩

end Daliuge.Unroll
