import GrammarFrontend.Proofs.Walk.Conformance
import GrammarFrontend.Proofs.Walk.TreeGrammar

/-! Readings of plans beside slots of the tree grammar. A plan conforms if all its readings succeed;
and where the grammar leaves open whether a slot is filled or how far it goes, the plan reads as far
as it can, which is right because what may come next is of another kind.
-/

namespace GrammarFrontend

-----------------------------------------------------------------------------------------
-- Readings that succeed
-----------------------------------------------------------------------------------------

namespace Shape

@[simp]
theorem requireKind_eq_ok {p : Production} {kinds : List NodeKind} {n : Node} {u : Unit}
    : requireKind p kinds n = .ok u ↔ n.kind ∈ kinds := by
  unfold requireKind
  split <;> simp_all

@[simp]
theorem expect_eq_ok {p : Production} {kinds : List NodeKind} {nodes rest : List Node} {n : Node}
    : expect p kinds nodes = .ok (n, rest) ↔ nodes = n :: rest ∧ n.kind ∈ kinds := by
  cases nodes with
  | nil => simp [expect]
  | cons m nodes =>
      rw [expect]
      split <;> simp_all <;> grind

@[simp]
theorem finish_eq_ok {p : Production} {nodes : List Node} {u : Unit}
    : finish p nodes = .ok u ↔ nodes = [] := by
  cases nodes <;> simp [finish]

/-- What is read of a list of nodes leaves the end of it. -/
theorem takeIf_suffix (kind : NodeKind) (nodes : List Node) : (takeIf kind nodes).2 <:+ nodes := by
  cases nodes with
  | nil => exact List.suffix_refl []
  | cons n rest =>
      rw [takeIf]
      split
      · exact List.suffix_cons n rest
      · exact List.suffix_refl _

/-- What is read is of the kind. -/
theorem takeIf_kind {kind : NodeKind} {nodes : List Node} {n : Node}
    (h : (takeIf kind nodes).1 = some n)
    : n.kind = kind := by
  cases nodes with
  | nil => simp [takeIf] at h
  | cons m rest =>
      rw [takeIf] at h
      split at h <;> simp_all

theorem takeRun_kind {kinds : List NodeKind} {nodes : List Node} {n : Node}
    (h : n ∈ (takeRun kinds nodes).1)
    : n.kind ∈ kinds := by
  have hall : (takeRun kinds nodes).1.all (kinds.contains ·.kind) = true := List.all_takeWhile
  exact List.contains_iff_mem.mp (List.all_eq_true.mp hall n h)

theorem takeRun_suffix (kinds : List NodeKind) (nodes : List Node)
    : (takeRun kinds nodes).2 <:+ nodes :=
  List.dropWhile_suffix _

end Shape

namespace Plan

variable {good : Visit → Prop}

@[simp]
theorem steps_conforms {plans : List Plan}
    : (steps plans).Conforms good ↔ ∀ plan ∈ plans, plan.Conforms good := by
  induction plans with
  | nil => simp [steps]
  | cons plan plans ih => simp [steps, ih]

@[simp]
theorem each_conforms {plans : List Plan}
    : (each plans).Conforms good ↔ ∀ plan ∈ plans, plan.Conforms good := by
  simp [each]

@[simp]
theorem eachRequired_conforms {p : Production} {expected : NodeKind} {plans : List Plan}
    : (eachRequired p expected plans).Conforms good
      ↔ plans ≠ [] ∧ ∀ plan ∈ plans, plan.Conforms good := by
  cases plans <;> simp [eachRequired]

@[simp]
theorem ite_conforms {c : Prop} [Decidable c] {first second : Plan}
    : (if c then first else second).Conforms good
      ↔ if c then first.Conforms good else second.Conforms good := by
  split <;> rfl

@[simp]
theorem visitAs_conforms {p : Production} {n : Node}
    : (visitAs p n).Conforms good ↔ good (.of p n) := Iff.rfl

@[simp]
theorem ofReading_error_conforms {e : WalkError} : ¬ (ofReading (.error e)).Conforms good := id

/-- A reading conforms if it succeeds and what it goes on with does. -/
@[simp]
theorem ofReading_bind_conforms {α : Type} {reading : Except WalkError α}
    {next : α → Except WalkError Plan}
    : (ofReading (reading >>= next)).Conforms good
      ↔ ∃ a, reading = .ok a ∧ (ofReading (next a)).Conforms good := by
  cases reading with
  | error e => exact ⟨False.elim, by simp⟩
  | ok a =>
      refine ⟨fun h => ⟨a, rfl, h⟩, ?_⟩
      intro h
      obtain ⟨b, hb, conforms⟩ := h
      obtain rfl := Except.ok.inj hb
      exact conforms

@[simp]
theorem ofReading_map_conforms {α : Type} {reading : Except WalkError α} {plan : α → Plan}
    : (ofReading (plan <$> reading)).Conforms good
      ↔ ∃ a, reading = .ok a ∧ (plan a).Conforms good := by
  cases reading with
  | error e => exact ⟨False.elim, by simp⟩
  | ok a =>
      refine ⟨fun h => ⟨a, rfl, h⟩, ?_⟩
      intro h
      obtain ⟨b, hb, conforms⟩ := h
      obtain rfl := Except.ok.inj hb
      exact conforms

end Plan

-----------------------------------------------------------------------------------------
-- Reading as far as possible
-----------------------------------------------------------------------------------------

namespace TreeGrammar

open Form Slot Shape

/-- To conform to the production is to derive from one of the forms, as far as this node goes. -/
abbrev Accepts (p : Production) (forms : List Form) (n : Node) : Prop :=
  ∀ (parts : List Node) (element : Node),
    Visit.Conforms { production := p, node := n, parts, element } ↔ OneOf forms n

/-- Nodes conform one by one. -/
theorem forall_conforms_iff {p : Production} {forms : List Form} {nodes : List Node}
    (h : ∀ n ∈ nodes, Accepts p forms n)
    : (∀ n ∈ nodes, Visit.Conforms ⟨p, n, n.children, n⟩) ↔ ∀ n ∈ nodes, OneOf forms n :=
  forall₂_congr (fun n hn => h n hn n.children n)

variable {forms : List Form} {slots : List Slot} {nodes : List Node}

/-- A slot for at most one node is filled if the next node is of its kind, where what comes after
the slot cannot begin with a node of that kind.
-/
theorem yields_opt_iff_takeIf (kind : NodeKind) (hkind : forms.map (·.kind) = [kind])
    (hfirst : kind ∉ firstKinds slots)
    : Yields (opt forms :: slots) nodes
      ↔ (∀ n ∈ (takeIf kind nodes).1, OneOf forms n) ∧ Yields slots (takeIf kind nodes).2 := by
  rw [yields_opt]
  cases nodes with
  | nil => simp [takeIf]
  | cons n rest =>
      by_cases h : n.kind = kind
      · have hother : ¬ Yields slots (n :: rest) := fun more => hfirst (h ▸ more.kind_mem)
        rw [or_iff_right hother, yields_one_cons]
        simp [takeIf, h]
      · have hother : ¬ OneOf forms n := by
          intro head
          have hmem := head.kind_mem
          rw [hkind] at hmem
          exact h (List.mem_singleton.mp hmem)
        rw [yields_one_cons, or_iff_left (fun both => hother both.1)]
        simp [takeIf, h]

/-- A token that may be absent says nothing more of the node. -/
theorem yields_opt_token (kind : NodeKind) (hfirst : kind ∉ firstKinds slots)
    : Yields (opt [token kind] :: slots) nodes ↔ Yields slots (takeIf kind nodes).2 := by
  rw [yields_opt_iff_takeIf kind rfl hfirst, and_iff_right]
  intro n hn
  exact oneOf_singleton.mpr (derives_token.mpr (takeIf_kind hn))

/-- A slot for any number of nodes goes on while the nodes are of its kinds, where what comes after
the slot cannot begin with a node of these kinds. The induction is on the nodes.
-/
theorem yields_many_iff_takeRun (kinds : List NodeKind)
    (hkinds : ∀ kind ∈ forms.map (·.kind), kind ∈ kinds)
    (hfirst : ∀ kind ∈ firstKinds slots, kind ∉ kinds)
    : Yields (many forms :: slots) nodes
      ↔ (∀ n ∈ (takeRun kinds nodes).1, OneOf forms n) ∧ Yields slots (takeRun kinds nodes).2 := by
  induction nodes with
  | nil =>
      rw [yields_many]
      simp [takeRun]
  | cons n rest ih =>
      rw [yields_many, yields_one_cons]
      by_cases h : n.kind ∈ kinds
      · have hother : ¬ Yields slots (n :: rest) := fun more => hfirst _ more.kind_mem h
        rw [or_iff_right hother, ih]
        simp [takeRun, h, and_assoc]
      · have hother : ¬ OneOf forms n := fun head => h (hkinds _ head.kind_mem)
        rw [or_iff_left (fun both => hother both.1)]
        simp [takeRun, h]

end TreeGrammar

end GrammarFrontend
