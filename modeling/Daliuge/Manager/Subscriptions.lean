import Mathlib.Data.List.Dedup
import Daliuge.Lib.Run
import Daliuge.Manager.Links

/-!
# Event subscriptions between nodes

A node session learns from `add_node_subscriptions` which of its drops hear the events of
drops on other nodes, host by host and call by call. What an entry says about a remote drop
replaces what earlier entries said about it.
-/
namespace Daliuge.Manager

variable {O H : Type} [DecidableEq O]

/-- What is told about one host. -/
abbrev HostEntry (O H : Type) := H × List (DROPRel O)

/-- The part of a `Session` its subscriptions live in: the oids of its graph, who hears whom,
and what is needed for the proxies. -/
structure NodeSession (O H : Type) where
  graph : List O
  dropsubs : O → List O := fun _ => []
  proxyinfo : List (H × O × String × O) := []

/-- Which drop of a relationship is local, and the other one. -/
def DROPRel.sides (graph : List O) (rel : DROPRel O) : Option (O × O) :=
  if rel.rhs ∈ graph then some (rel.rhs, rel.lhs)
  else if rel.lhs ∈ graph then some (rel.lhs, rel.rhs)
  else none

/-- The remote drop and the local one that hears it, when the local one is the receiver. -/
def DROPRel.subscription (graph : List O) (rel : DROPRel O) : Option (O × O) :=
  match rel.sides graph with
  | none => none
  | some (l, r) =>
    if rel.rel.isEvtConsumer && rel.lhs == l || rel.rel.isEvtProducer && rel.rhs == l then
      some (r, l)
    else none

/-- `dropsubs[remote]` of one entry. -/
def receivers (graph : List O) (rels : List (DROPRel O)) (r : O) : List O :=
  ((rels.filterMap (·.subscription graph)).filterMap fun p =>
    if p.1 = r then some p.2 else none).dedup

namespace NodeSession

/-- `self._dropsubs.update(dropsubs)`. -/
def subscribe (s : NodeSession O H) (rels : List (DROPRel O)) : NodeSession O H :=
  { s with dropsubs := fun r =>
      match receivers s.graph rels r with
      | [] => s.dropsubs r
      | ls => ls }

/-- The proxies of an entry. A parent ends the call with a KeyError. -/
def recordProxies (s : NodeSession O H) (host : H) : List (DROPRel O) → NodeSession O H × Bool
  | [] => (s, true)
  | rel :: rels =>
    match rel.rel.appendMethod, rel.rel.backAppendMethod with
    | some mname, some back =>
      let info := if rel.rhs ∈ s.graph then (host, rel.rhs, mname, rel.lhs)
        else (host, rel.lhs, back, rel.rhs)
      recordProxies { s with proxyinfo := s.proxyinfo ++ [info] } host rels
    | _, _ => (s, false)

/-- `add_node_subscriptions`: the session afterwards, and whether the call got to its end. -/
def addNodeSubscriptions (s : NodeSession O H) : List (HostEntry O H) → NodeSession O H × Bool
  | [] => (s, true)
  | (host, rels) :: entries =>
    match (s.subscribe rels).recordProxies host rels with
    | (s, true) => addNodeSubscriptions s entries
    | (s, false) => (s, false)

/-- One call after the other. -/
def addAll (s : NodeSession O H) (calls : List (List (HostEntry O H))) : NodeSession O H :=
  Run.run (fun s call => (addNodeSubscriptions s call).1) s calls

/-- `deliver_event`: the drops whose `handleEvent` is called, in order. -/
def deliverEvent (s : NodeSession O H) (r : O) : List O := s.dropsubs r

end NodeSession

/-! What the entries say. -/

/-- The local drop of a relationship hears the remote one. -/
def DROPRel.Hears (graph : List O) (rel : DROPRel O) (r l : O) : Prop :=
  l ∈ graph ∧ r ∉ graph ∧ (rel.rel.isEvtConsumer = true ∧ rel.lhs = l ∧ rel.rhs = r ∨
    rel.rel.isEvtProducer = true ∧ rel.rhs = l ∧ rel.lhs = r)

/-- The entries of a call up to the first that has a parent in it. -/
def taken : List (HostEntry O H) → List (HostEntry O H)
  | [] => []
  | e :: entries => if e.2.any (·.rel == .parent) then [e] else e :: taken entries

/-- What is said of a drop after an entry. -/
def heard (graph : List O) (r : O) (ls : List O) (e : HostEntry O H) : List O :=
  match receivers graph e.2 r with
  | [] => ls
  | ls' => ls'

/-- What the last of the entries that name receivers of a drop says. -/
def lastReceivers (graph : List O) (entries : List (HostEntry O H)) (r : O) : List O :=
  entries.foldl (heard graph r) []

/-- The session of a node before the first call. -/
def NodeSession.start (H : Type) (graph : List O) : NodeSession O H := { graph }

/-- Every relationship that makes a local drop hear a remote one gets its event there once. -/
def NoEventLost (graph : List O) (calls : List (List (HostEntry O H))) : Prop :=
  ∀ call ∈ calls, ∀ e ∈ call, ∀ rel ∈ e.2, ∀ r l, rel.Hears graph r l →
    (((NodeSession.start H graph).addAll calls).deliverEvent r).count l = 1

/-- For every remote drop, the last entry taken in that names receivers of it names all those
any entry names. -/
def LastNamesAll (graph : List O) (calls : List (List (HostEntry O H))) : Prop :=
  ∀ call ∈ calls, ∀ e ∈ call, ∀ r, r ∉ graph →
    receivers graph e.2 r ⊆ lastReceivers graph (calls.flatMap taken) r

section

variable {s : NodeSession O H} {graph : List O} {rels : List (DROPRel O)} {rel : DROPRel O}
  {r l : O} {host : H} {call entries : List (HostEntry O H)}
  {calls : List (List (HostEntry O H))}

theorem subscription_iff (hr : r ∉ graph) :
    rel.subscription graph = some (r, l) ↔ rel.Hears graph r l := by
  obtain ⟨lhs, kind, rhs⟩ := rel
  simp only [DROPRel.subscription, DROPRel.sides, DROPRel.Hears]
  constructor
  · intro h
    split at h
    · simp at h
    · rename_i l' r' hs
      split at h
      · rename_i hk
        obtain ⟨rfl, rfl⟩ := Prod.mk.inj (Option.some.inj h)
        split at hs
        · rename_i hin
          obtain ⟨rfl, rfl⟩ := Prod.mk.inj (Option.some.inj hs)
          have hne : lhs ≠ rhs := fun he => hr (he ▸ hin)
          have hprod : kind.isEvtProducer = true := by simpa [hne] using hk
          exact ⟨hin, hr, Or.inr ⟨hprod, rfl, rfl⟩⟩
        · split at hs
          · rename_i hout hin
            obtain ⟨rfl, rfl⟩ := Prod.mk.inj (Option.some.inj hs)
            have hne : rhs ≠ lhs := fun he => hout (he ▸ hin)
            have hcons : kind.isEvtConsumer = true := by simpa [hne] using hk
            exact ⟨hin, hr, Or.inl ⟨hcons, rfl, rfl⟩⟩
          · simp at hs
      · simp at h
  · rintro ⟨hl, -, ⟨hk, rfl, rfl⟩ | ⟨hk, rfl, rfl⟩⟩
    · simp [hr, hl, hk]
    · simp [hl, hk]

theorem mem_receivers :
    l ∈ receivers graph rels r ↔ ∃ rel ∈ rels, rel.subscription graph = some (r, l) := by
  simp only [receivers, List.mem_dedup, List.mem_filterMap]
  constructor
  · rintro ⟨p, ⟨rel, hrel, hp⟩, hl⟩
    split at hl
    · rename_i h
      obtain rfl := Option.some.inj hl
      exact ⟨rel, hrel, by rw [hp, ← h]⟩
    · simp at hl
  · rintro ⟨rel, hrel, hp⟩
    exact ⟨(r, l), ⟨rel, hrel, hp⟩, by simp⟩

theorem recordProxies_keeps (s : NodeSession O H) (host : H) (rels : List (DROPRel O)) :
    (s.recordProxies host rels).1.graph = s.graph ∧
    (s.recordProxies host rels).1.dropsubs = s.dropsubs := by
  induction rels generalizing s with
  | nil => exact ⟨rfl, rfl⟩
  | cons rel rels ih =>
    rw [NodeSession.recordProxies]
    split
    · exact ih _
    · exact ⟨rfl, rfl⟩

theorem recordProxies_ok (s : NodeSession O H) (host : H) (rels : List (DROPRel O)) :
    (s.recordProxies host rels).2 = !rels.any (·.rel == .parent) := by
  induction rels generalizing s with
  | nil => rfl
  | cons rel rels ih =>
    rw [NodeSession.recordProxies]
    obtain ⟨lhs, kind, rhs⟩ := rel
    cases kind <;> simp [LinkType.appendMethod, LinkType.backAppendMethod, ih]

/-- What a call leaves of a drop's receivers: the entries it takes in, one after the other. -/
theorem addNodeSubscriptions_spec (s : NodeSession O H) (call : List (HostEntry O H)) (r : O) :
    (s.addNodeSubscriptions call).1.graph = s.graph ∧
    (s.addNodeSubscriptions call).1.dropsubs r =
      (taken call).foldl (heard s.graph r) (s.dropsubs r) := by
  induction call generalizing s with
  | nil => exact ⟨rfl, rfl⟩
  | cons e entries ih =>
    obtain ⟨host, rels⟩ := e
    obtain ⟨hg, hd⟩ := recordProxies_keeps (s.subscribe rels) host rels
    have hok := recordProxies_ok (s.subscribe rels) host rels
    have hsub : (s.subscribe rels).dropsubs r = heard s.graph r (s.dropsubs r) (host, rels) := rfl
    rw [NodeSession.addNodeSubscriptions]
    cases hp : (s.subscribe rels).recordProxies host rels with
    | mk s' ok =>
      rw [hp] at hg hd hok
      simp only at hg hd hok
      cases ok with
      | true =>
        have hany : (rels.any fun rel => rel.rel == .parent) = false := by simpa using hok.symm
        obtain ⟨ihg, ihd⟩ := ih (s := s')
        rw [hg] at ihg ihd
        refine ⟨ihg, ?_⟩
        rw [ihd, hd, hsub]
        simp [taken, hany, NodeSession.subscribe]
      | false =>
        have hany : (rels.any fun rel => rel.rel == .parent) = true := by simpa using hok.symm
        refine ⟨hg, ?_⟩
        rw [hd, hsub]
        simp [taken, hany]

/-- What all calls leave: the last entry taken in that says something. -/
theorem addAll_spec : (s.addAll calls).graph = s.graph ∧
    (s.addAll calls).dropsubs r =
      (calls.flatMap taken).foldl (heard s.graph r) (s.dropsubs r) := by
  induction calls generalizing s with
  | nil => exact ⟨rfl, rfl⟩
  | cons call calls ih =>
    obtain ⟨hg, hd⟩ := addNodeSubscriptions_spec s call r
    obtain ⟨ihg, ihd⟩ := ih (s := (s.addNodeSubscriptions call).1)
    rw [hg] at ihg ihd
    refine ⟨ihg, ?_⟩
    rw [List.flatMap_cons, List.foldl_append, ← hd]
    exact ihd

theorem deliverEvent_addAll : ((NodeSession.start H graph).addAll calls).deliverEvent r =
    lastReceivers graph (calls.flatMap taken) r :=
  addAll_spec.2

theorem nodup_lastReceivers : (lastReceivers graph entries r).Nodup := by
  have h : ∀ ls : List O, ls.Nodup → (entries.foldl (heard graph r) ls).Nodup := by
    induction entries with
    | nil => exact fun ls h => h
    | cons e entries ih =>
      intro ls hls
      refine ih _ ?_
      unfold heard
      split
      · exact hls
      · rw [receivers]
        exact List.nodup_dedup _
  exact h [] List.nodup_nil

/-- Events reach every receiver once exactly when the last word on each remote drop is the
full one. -/
theorem noEventLost_iff_lastNamesAll : NoEventLost graph calls ↔ LastNamesAll graph calls := by
  have hcount : ∀ r l, (((NodeSession.start H graph).addAll calls).deliverEvent r).count l = 1 ↔
      l ∈ lastReceivers graph (calls.flatMap taken) r := by
    intro r l
    rw [deliverEvent_addAll]
    constructor
    · intro h
      exact List.count_pos_iff.mp (by omega)
    · exact List.count_eq_one_of_mem nodup_lastReceivers
  constructor
  · intro h call hcall e he r hr l hl
    obtain ⟨rel, hrel, hs⟩ := mem_receivers.mp hl
    exact (hcount r l).mp (h call hcall e he rel hrel r l ((subscription_iff hr).mp hs))
  · intro h call hcall e he rel hrel r l hh
    have hs := (subscription_iff hh.2.1).mpr hh
    exact (hcount r l).mpr (h call hcall e he r hh.2.1 (mem_receivers.mpr ⟨rel, hrel, hs⟩))

end

/-- Two applications of a node hear the same remote data, each told of in a call of its own:
the second call takes the first one's event away. -/
theorem second_call_replaces : ¬ NoEventLost ["a", "b"]
    [[("host", [⟨"a", .consumer, "x"⟩])], [("host", [⟨"b", .consumer, "x"⟩])]] := by
  intro h
  have hone := h [("host", [⟨"a", .consumer, "x"⟩])] (by simp) ("host", [⟨"a", .consumer, "x"⟩])
    (by simp) ⟨"a", .consumer, "x"⟩ (by simp) "x" "a"
    ⟨by decide, by decide, Or.inl ⟨rfl, rfl, rfl⟩⟩
  exact absurd hone (by decide)

end Daliuge.Manager
