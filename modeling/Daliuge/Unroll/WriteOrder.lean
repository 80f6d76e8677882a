import Mathlib.Algebra.Order.Group.Multiset
import Daliuge.Lib.Exchange
import Daliuge.Unroll.Ledger

/-!
# The order of the writes

What a list of writes leaves behind, without the order in which the lists were filled. Two
writes can be exchanged unless one of them names a port where the other one does not, or both
set the same port of a drop.
-/
namespace Daliuge.Unroll

/-- What one end of a relation puts into the lists of its drop. -/
structure Addition where
  owner : Ident
  key : RelationKey
  oid : String
  name : Option String
  isInput : Bool

/-- Whether the entry under this name is the bare oid. -/
def isPlain : Option String → Bool
  | none => true
  | some name => name == ""

/-- The entries of all lists, in no order. -/
abbrev Entries := Multiset (Ident × RelationKey × Entry)

namespace Addition

/-- The entry that keeps others out. -/
def plain (a : Addition) : Ident × RelationKey × Entry := (a.owner, a.key, .plain a.oid)

def entry (a : Addition) : Ident × RelationKey × Entry :=
  (a.owner, a.key, Relations.entry a.oid a.name)

def port (a : Addition) : Ident × RelationKey × Entry :=
  (a.owner, .ports, .port a.oid a.name a.isInput)

def apply (m : Entries) (a : Addition) : Entries :=
  a.port ::ₘ if a.plain ∈ m then m else a.entry ::ₘ m

/-- Two additions of the same oid to the same list both name a port or both do not. -/
def Compatible (a b : Addition) : Prop :=
  a.owner = b.owner → a.key = b.key → a.oid = b.oid → isPlain a.name = isPlain b.name

variable {a b : Addition} {m : Entries}

theorem entry_eq_plain : a.entry = b.plain ↔
    a.owner = b.owner ∧ a.key = b.key ∧ a.oid = b.oid ∧ isPlain a.name = true := by
  have he : Relations.entry a.oid a.name = .plain b.oid ↔
      a.oid = b.oid ∧ isPlain a.name = true := by
    cases a.name with
    | none => simp [Relations.entry, isPlain]
    | some name =>
      simp only [Relations.entry, isPlain]
      split <;> simp [*]
  simp [entry, plain, he]

theorem plain_ne_port : b.plain ≠ a.port := by
  simp [plain, port]

theorem plain_mem_apply : b.plain ∈ apply m a ↔
    b.plain ∈ m ∨ a.plain ∉ m ∧ a.entry = b.plain := by
  unfold apply
  rw [Multiset.mem_cons]
  split
  · rename_i hm
    simp [plain_ne_port, hm]
  · rename_i hm
    rw [Multiset.mem_cons]
    simp [plain_ne_port, hm, eq_comm, or_comm]

/-- Compatible additions can be exchanged. -/
theorem apply_comm (h : a.Compatible b) : apply (apply m a) b = apply (apply m b) a := by
  by_cases hab : a.entry = b.plain
  · -- both leave the bare oid in the same list
    obtain ⟨ho, hk, hid, hp⟩ := entry_eq_plain.mp hab
    have hpb : isPlain b.name = true := (h ho hk hid).symm.trans hp
    have hplain : a.plain = b.plain := by simp [plain, ho, hk, hid]
    have hba : b.entry = a.plain := entry_eq_plain.mpr ⟨ho.symm, hk.symm, hid.symm, hpb⟩
    have hentry : a.entry = b.entry := by rw [hab, hba, hplain]
    have hx : ∀ x y : Addition, x.plain = y.plain → y.plain ∈ apply m x → x.entry = y.entry →
        apply (apply m x) y = y.port ::ₘ x.port ::ₘ if y.plain ∈ m then m else y.entry ::ₘ m := by
      intro x y hp hy he
      rw [apply, if_pos hy, apply, hp, he]
    have hb : b.plain ∈ apply m a := by
      by_cases hm : b.plain ∈ m
      · exact plain_mem_apply.mpr (Or.inl hm)
      · exact plain_mem_apply.mpr (Or.inr ⟨hplain ▸ hm, hab⟩)
    have ha : a.plain ∈ apply m b := by
      by_cases hm : a.plain ∈ m
      · exact plain_mem_apply.mpr (Or.inl hm)
      · exact plain_mem_apply.mpr (Or.inr ⟨hplain ▸ hm, hba⟩)
    rw [hx a b hplain hb hentry, hx b a hplain.symm ha hentry.symm, hplain, hentry,
      Multiset.cons_swap]
  · -- neither keeps the other out
    have hba : b.entry ≠ a.plain := by
      intro he
      obtain ⟨ho, hk, hid, hp⟩ := entry_eq_plain.mp he
      have hpa : isPlain a.name = true := (h ho.symm hk.symm hid.symm).trans hp
      exact hab (entry_eq_plain.mpr ⟨ho.symm, hk.symm, hid.symm, hpa⟩)
    have hb : b.plain ∈ apply m a ↔ b.plain ∈ m := by simp [plain_mem_apply, hab]
    have ha : a.plain ∈ apply m b ↔ a.plain ∈ m := by simp [plain_mem_apply, hba]
    have hx : ∀ x y : Addition, (y.plain ∈ apply m x ↔ y.plain ∈ m) → apply (apply m x) y =
        y.port ::ₘ x.port ::ₘ if y.plain ∈ m then (if x.plain ∈ m then m else x.entry ::ₘ m)
          else y.entry ::ₘ (if x.plain ∈ m then m else x.entry ::ₘ m) := by
      intro x y hy
      rw [apply]
      simp only [hy]
      split
      · rfl
      · rw [apply, Multiset.cons_swap y.entry]
    rw [hx a b hb, hx b a ha, Multiset.cons_swap]
    by_cases h1 : a.plain ∈ m <;> by_cases h2 : b.plain ∈ m <;>
      simp [h1, h2, Multiset.cons_swap]

end Addition

/-! What is left behind by a list of writes. -/

/-- A ledger without the order. -/
structure Tally where
  relations : Entries
  portMaps : Multiset (Ident × String × String)
  bridges : Multiset Drop

def Ledger.tally (w : Ledger) : Tally := ⟨w.relations, w.portMaps, w.bridges⟩

def Relation.additions (e : Relation) : List Addition :=
  [⟨e.source.ident, e.kind.forward, e.target.oid, e.sourceName, false⟩,
    ⟨e.target.ident, e.kind.backward, e.source.oid, e.targetName, true⟩]

namespace Write

/-- Whether a bridge is between these drops. -/
def isBetween (s t b : Drop) : Bool :=
  match b.ident with
  | .bridge s' t' _ => s' == s.oid && t' == t.oid
  | .made _ _ _ => false

/-- The number a bridge gets. -/
def number (bridges : Multiset Drop) : Write → Nat
  | relate _ => 0
  | bridge s t => bridges.countP fun b => isBetween s t b = true

/-- The relations of a write, its bridge having a number. -/
def relations (sessionId : String) (n : Nat) : Write → List Relation
  | relate e => [e]
  | bridge s t => bridgeRelations s t (bridgeDrop sessionId s t n)

def additions (sessionId : String) (n : Nat) (x : Write) : List Addition :=
  (x.relations sessionId n).flatMap Relation.additions

/-- The port of a drop that is set. -/
def port : Write → Option (Ident × String × String)
  | relate e =>
    match e.kind with
    | .output => some (e.target.ident, e.targetName.getD "", e.sourceName.getD "")
    | .consumer | .streaming => none
  | bridge _ _ => none

/-- The bridge that is made. -/
def made (sessionId : String) (n : Nat) : Write → Multiset Drop
  | relate _ => 0
  | bridge s t => {bridgeDrop sessionId s t n}

/-- Writes that can be exchanged. -/
structure Compatible (sessionId : String) (x y : Write) : Prop where
  additions : ∀ n m, ∀ a ∈ x.additions sessionId n, ∀ b ∈ y.additions sessionId m, a.Compatible b
  ports : ∀ p q, x.port = some p → y.port = some q → p.1 = q.1 → p.2.1 = q.2.1 → p = q

/-- Two bridges that count each other. -/
def Paired (x y : Write) : Prop :=
  ∃ s t s' t', x = bridge s t ∧ y = bridge s' t' ∧ s.oid = s'.oid ∧ t.oid = t'.oid

end Write

/-- A port map in which one port is set. -/
def setPort (m : Multiset (Ident × String × String)) :
    Option (Ident × String × String) → Multiset (Ident × String × String)
  | none => m
  | some p => p ::ₘ m.filter fun q => ¬ (q.1 = p.1 ∧ q.2.1 = p.2.1)

def Tally.write (sessionId : String) (t : Tally) (x : Write) : Tally where
  relations := (x.additions sessionId (x.number t.bridges)).foldl Addition.apply t.relations
  portMaps := setPort t.portMaps x.port
  bridges := x.made sessionId (x.number t.bridges) + t.bridges

section Tally

variable {sid : String} {w w' : Ledger} {t : Tally} {x y : Write} {e : Relation}
  {xs ys : List Write}

theorem coe_add {r : Relations} {d other : Drop} {name : Option String} {key : RelationKey}
    {isInput : Bool} : (↑(r.add d other name key isInput) : Entries) =
      Addition.apply ↑r ⟨d.ident, key, other.oid, name, isInput⟩ := by
  unfold Relations.add Relations.addPort Relations.addSomething Addition.apply Addition.plain
  simp only [Multiset.mem_coe]
  split
  · exact Multiset.coe_eq_coe.mpr (List.perm_append_singleton _ _)
  · exact Multiset.coe_eq_coe.mpr
      ((List.perm_append_singleton _ _).trans (List.Perm.cons _ (List.perm_append_singleton _ _)))

theorem coe_relate {r : Relations} :
    (↑(r.relate e) : Entries) = e.additions.foldl Addition.apply ↑r := by
  rw [Relations.relate, coe_add, coe_add]
  rfl

theorem coe_foldl_relate (es : List Relation) (r : Relations) :
    (↑(es.foldl Relations.relate r) : Entries) =
      (es.flatMap Relation.additions).foldl Addition.apply ↑r := by
  induction es generalizing r with
  | nil => rfl
  | cons e es ih => rw [List.foldl_cons, ih, coe_relate, List.flatMap_cons, List.foldl_append]

theorem coe_bridgesBetween {bridges : List Drop} {s t : Drop} :
    (Write.bridge s t).number ↑bridges = bridgesBetween bridges s t := by
  refine (Multiset.coe_countP _ _).trans (List.countP_congr fun b _ => ?_)
  exact decide_eq_true_iff

/-- A write changes what is left behind, whatever the order so far. -/
theorem tally_write : (w.write sid x).tally = w.tally.write sid x := by
  cases x with
  | relate e =>
    have hr := coe_relate (e := e) (r := w.relations)
    have hset : ∀ d input output, (↑(w.setPort d input output).portMaps : Multiset _) =
        setPort ↑w.portMaps (some (d.ident, input, output)) := by
      intro d input output
      refine (Multiset.coe_eq_coe.mpr (List.perm_append_singleton _ _)).trans ?_
      have hf := List.filter_congr (l := w.portMaps)
        (p := fun p => !(p.1 == d.ident && p.2.1 == input))
        (q := fun p => decide ¬ (p.1 = d.ident ∧ p.2.1 = input)) fun p _ => by
          rw [Bool.eq_iff_iff]
          simp
      rw [hf, setPort, Multiset.filter_coe]
      rfl
    obtain ⟨kind, s, t, sname, tname⟩ := e
    cases kind with
    | output =>
      exact congrArg₂ (Tally.mk · · _) hr (hset t _ _)
    | consumer => exact congrArg (Tally.mk · _ _) hr
    | streaming => exact congrArg (Tally.mk · _ _) hr
  | bridge s t =>
    let b := bridgeDrop sid s t (bridgesBetween w.bridges s t)
    have hr := coe_foldl_relate (bridgeRelations s t b) w.relations
    have hb : (↑(w.bridges ++ [b]) : Multiset Drop) = {b} + ↑w.bridges :=
      Multiset.coe_eq_coe.mpr (List.perm_append_singleton _ _)
    simp only [Tally.write, Ledger.tally, coe_bridgesBetween]
    exact congrArg₂ (Tally.mk · _ ·) hr hb

theorem tally_foldl_write :
    (xs.foldl (Ledger.write sid) w).tally = xs.foldl (Tally.write sid) w.tally := by
  induction xs generalizing w with
  | nil => rfl
  | cons x xs ih => rw [List.foldl_cons, ih, tally_write, List.foldl_cons]

/-! Exchanging two writes. -/

theorem setPort_comm {m : Multiset (Ident × String × String)}
    {p q : Option (Ident × String × String)}
    (h : ∀ p' q', p = some p' → q = some q' → p'.1 = q'.1 → p'.2.1 = q'.2.1 → p' = q') :
    setPort (setPort m p) q = setPort (setPort m q) p := by
  cases p with
  | none => rfl
  | some p =>
    cases q with
    | none => rfl
    | some q =>
      by_cases hpq : p.1 = q.1 ∧ p.2.1 = q.2.1
      · rw [h p q rfl rfl hpq.1 hpq.2]
      · have hqp : ¬ (q.1 = p.1 ∧ q.2.1 = p.2.1) := fun hc => hpq ⟨hc.1.symm, hc.2.symm⟩
        simp only [setPort]
        rw [Multiset.filter_cons_of_pos
            (p := fun r : Ident × String × String => ¬ (r.1 = q.1 ∧ r.2.1 = q.2.1)) _ hpq,
          Multiset.filter_cons_of_pos
            (p := fun r : Ident × String × String => ¬ (r.1 = p.1 ∧ r.2.1 = p.2.1)) _ hqp,
          Multiset.cons_swap, Multiset.filter_comm]

variable (sid) in
/-- A write that is not paired with this one leaves the number of its bridge alone. -/
theorem number_made (bridges : Multiset Drop) (n : Nat) (h : ¬ x.Paired y) :
    x.number (y.made sid n + bridges) = x.number bridges := by
  cases x with
  | relate e => rfl
  | bridge s t =>
    cases y with
    | relate e => simp [Write.made]
    | bridge s' t' =>
      have hn : Write.isBetween s t (bridgeDrop sid s' t' n) = false := by
        simp only [Write.isBetween, bridgeDrop, Bool.and_eq_false_iff, beq_eq_false_iff_ne]
        by_contra hc
        push Not at hc
        exact h ⟨s, t, s', t', rfl, rfl, hc.1.symm, hc.2.symm⟩
      simp [Write.number, Write.made, hn]

theorem Write.Compatible.symm (h : x.Compatible sid y) : y.Compatible sid x where
  additions n m a ha b hb ho hk hid := (h.additions m n b hb a ha ho.symm hk.symm hid.symm).symm
  ports p q hp hq h₁ h₂ := (h.ports q p hq hp h₁.symm h₂.symm).symm

theorem Write.Paired.symm (h : x.Paired y) : y.Paired x := by
  obtain ⟨s, t, s', t', hx, hy, hs, ht⟩ := h
  exact ⟨s', t', s, t, hy, hx, hs.symm, ht.symm⟩

/-- What a bridge adds on the drops it joins, and about itself. -/
theorem bridge_additions_eq {s d : Drop} {n : Nat} : (Write.bridge s d).additions sid n =
    [⟨s.ident, .outputs, bridgeOid sid s.oid d.oid, some "stream", false⟩,
      ⟨.bridge s.oid d.oid n, .producers, s.oid, some "stream", true⟩,
      ⟨.bridge s.oid d.oid n, .streamingConsumers, d.oid, some "stream", false⟩,
      ⟨d.ident, .streamingInputs, bridgeOid sid s.oid d.oid, some "stream", true⟩] := rfl

theorem isPlain_bridge {s d : Drop} {n : Nat} {a : Addition}
    (h : a ∈ (Write.bridge s d).additions sid n) : isPlain a.name = false := by
  rw [bridge_additions_eq] at h
  simp only [List.mem_cons, List.not_mem_nil, or_false] at h
  rcases h with rfl | rfl | rfl | rfl <;> rfl

theorem perm_of_swapped {α : Type} (a b c d a' b' c' d' : α) :
    [a, b, c, d, a', b', c', d'].Perm [a', b, c, d', a, b', c', d] := by
  have h : [0, 1, 2, 3, 4, 5, 6, 7].Perm [4, 1, 2, 7, 0, 5, 6, 3] := by decide
  exact h.map fun i => [a, b, c, d, a', b', c', d'].getD i a

/-- Whichever of two paired bridges comes first gets the number that the other one would have
got. -/
theorem Tally.write_paired (h : x.Paired y) :
    (t.write sid x).write sid y = (t.write sid y).write sid x := by
  obtain ⟨s, d, s', d', rfl, rfl, hs, hd⟩ := h
  have hmade : ∀ n, (Write.bridge s' d').made sid n = (Write.bridge s d).made sid n := by
    intro n
    simp only [Write.made, bridgeDrop, hs, hd]
  have hnumber : ∀ bs, (Write.bridge s' d').number bs = (Write.bridge s d).number bs := by
    intro bs
    have hb : Write.isBetween s' d' = Write.isBetween s d := by
      funext b
      simp only [Write.isBetween, hs, hd]
    exact Multiset.countP_congr rfl fun b _ => by rw [hb]
  have hperm : ∀ n m,
      ((Write.bridge s d).additions sid n ++ (Write.bridge s' d').additions sid m).Perm
        ((Write.bridge s' d').additions sid n ++ (Write.bridge s d).additions sid m) := by
    intro n m
    simp only [bridge_additions_eq, hs, hd]
    exact perm_of_swapped ..
  have hfold : ∀ n m, ((Write.bridge s' d').additions sid m).foldl Addition.apply
      (((Write.bridge s d).additions sid n).foldl Addition.apply t.relations) =
        ((Write.bridge s d).additions sid m).foldl Addition.apply
          (((Write.bridge s' d').additions sid n).foldl Addition.apply t.relations) := by
    intro n m
    rw [← List.foldl_append, ← List.foldl_append]
    refine (hperm n m).foldl_eq' (fun a ha b hb r => Addition.apply_comm fun _ _ _ => ?_) _
    have hnamed : ∀ c ∈ (Write.bridge s d).additions sid n ++
        (Write.bridge s' d').additions sid m, isPlain c.name = false := fun c hc =>
      (List.mem_append.mp hc).elim isPlain_bridge isPlain_bridge
    rw [hnamed a ha, hnamed b hb]
  simp only [Tally.write, hnumber, hmade, hfold]
  rfl

theorem Tally.write_comm (h : x.Compatible sid y) :
    (t.write sid x).write sid y = (t.write sid y).write sid x := by
  by_cases hpaired : x.Paired y
  · exact Tally.write_paired hpaired
  have hx := number_made sid t.bridges (y.number t.bridges) hpaired
  have hy := number_made sid t.bridges (x.number t.bridges) (mt Write.Paired.symm hpaired)
  have hr := Exchange.foldl_foldl_comm (f := Addition.apply)
    (fun a ha b hb m => Addition.apply_comm
      (h.additions (x.number t.bridges) (y.number t.bridges) a ha b hb)) t.relations
  simp only [Tally.write, hx, hy, hr, setPort_comm h.ports, add_left_comm]

/-- Writes that can all be exchanged leave the same behind in any order. -/
theorem foldl_write_perm (hxs : xs.Perm ys) (h : ∀ x ∈ xs, ∀ y ∈ xs, x.Compatible sid y) :
    xs.foldl (Tally.write sid) t = ys.foldl (Tally.write sid) t :=
  List.Perm.foldl_eq' hxs (fun x hx y hy _ => Tally.write_comm (h x hx y hy)) t

end Tally

end Daliuge.Unroll
