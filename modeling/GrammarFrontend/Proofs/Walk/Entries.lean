import GrammarFrontend.Walk.Walker

/-! Visits by name. The full registry has every production under its name and nothing else, so that
a visit carries out one production and then reports its error, if there is one.
-/

namespace GrammarFrontend

/-- What the full registry has under a name is a production. -/
theorem Registry.full_get?_eq_production {name : String} {handler : Handler}
    (h : full.get? name = some handler)
    : ∃ p, handler = .production p := by
  obtain ⟨before, after, hsplit, -⟩ := List.lookup_eq_some_iff.mp h
  have hmem : (name, handler) ∈ full.entries := by
    rw [hsplit]
    simp
  obtain ⟨p, -, hp⟩ := List.mem_map.mp hmem
  exact ⟨p, (congrArg Prod.snd hp).symm⟩

/-- The full registry has every production under its name, by cases on the productions. -/
theorem Registry.full_get?_name (p : Production)
    : full.get? p.name = some (.production p) := by
  cases p <;> rfl

namespace Walker

/-- A name without an entry is an error of the visit. -/
theorem visit_of_none {w : Walker} {name : String} (h : w.registry.get? name = none)
    (nesting : Nat) (node : Node)
    : w.visit (nesting + 1) node name
      = some (w.conclude (.error (.unknownProduction name))) := by
  simp only [visit, h]

/-- A visit of a production carries it out and then reports its error, if it is the outermost. -/
theorem visit_of_production {w : Walker} {name : String} {p : Production}
    (h : w.registry.get? name = some (.production p)) (nesting : Nat) (node : Node)
    : w.visit (nesting + 1) node name
      = some
          (conclude { w with state := ((Visit.of p node).start w.config w.state).2 }
            ((Visit.of p node).start w.config w.state).1) := by
  simp only [visit, h]
  rfl

end Walker

end GrammarFrontend
