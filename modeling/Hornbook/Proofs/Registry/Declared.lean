import Hornbook.Proofs.Registry.Growth
import Hornbook.Proofs.Registry.Names
import Hornbook.Proofs.Text.Numbered

/-!
# Declarations and applications

A solver refuses a script that declares a symbol twice or uses one that it does not
declare.  Both are ruled out for the scripts of a registry.

No symbol is declared twice (`nodup_declaredSymbols`).  Predicates have distinct names,
and the name of a version tells the name of its predicate.

Every application is declared (`declared_of_applied`).  An application names a version
that was there when it was built.  Versions are never taken away between two resets, so
the declarations of every later state declare it, with the sorts of its arguments.  A rule
whose body and head are two applications (`Term.IsRule`) has nothing else to be declared.
-/

namespace Hornbook

/-- A term is the rule that leads from `body` to `head`.  It is their implication, closed over
the variables when there are any. -/
inductive Term.IsRule (body head : Term) : List (String × SmtSort) → Term → Prop where
  | plain : IsRule body head [] (.binary .implies body head)
  | closed {vars : List (String × SmtSort)} : vars ≠ [] →
      IsRule body head vars (.quantified .universal vars (.binary .implies body head))

theorem Term.isRule_hornRule (vars : List (String × SmtSort)) (body head : Term) :
    IsRule body head vars (hornRule vars body head) := by
  cases vars with
  | nil => exact .plain
  | cons x xs => exact .closed (List.cons_ne_nil x xs)

namespace Script

/-- A script has exactly one command that declares the name of a symbol, and that command
declares the symbol. -/
def DeclaresOnce (s : Script) (f : FunSymbol) : Prop :=
  s.commands.filter (fun c => c.declared? = some f.name) = [.declareFun f]

/-- Behind a script, the assertion of a term finds a symbol declared: the longer script
declares it exactly once, and in front of the assertion. -/
def DeclaresOnceBefore (s : Script) (f : FunSymbol) (term : Term) : Prop :=
  (s.push (.assert term)).DeclaresOnce f ∧
    ∃ before between,
      (s.push (.assert term)).commands = before ++ .declareFun f :: (between ++ [.assert term])

/-- A symbol that a script without double declarations declares is declared once. -/
theorem declaresOnce_of_mem {s : Script} {f : FunSymbol} (nodup : s.declaredSymbols.Nodup)
    (mem : .declareFun f ∈ s.commands) : s.DeclaresOnce f := by
  obtain ⟨before, behind, split⟩ := List.append_of_mem mem
  have names : s.declaredSymbols = before.filterMap Command.declared?
      ++ f.name :: behind.filterMap Command.declared? := by
    rw [declaredSymbols, split, List.filterMap_append]
    rfl
  rw [names, List.nodup_append, List.nodup_cons] at nodup
  obtain ⟨-, ⟨notBehind, -⟩, apart⟩ := nodup
  have noneBefore : before.filter (fun c => c.declared? = some f.name) = [] := by
    rw [List.filter_eq_nil_iff]
    intro c hc declared
    have named : f.name ∈ before.filterMap Command.declared? :=
      List.mem_filterMap.mpr ⟨c, hc, of_decide_eq_true declared⟩
    exact apart _ named _ List.mem_cons_self rfl
  have noneBehind : behind.filter (fun c => c.declared? = some f.name) = [] := by
    rw [List.filter_eq_nil_iff]
    intro c hc declared
    exact notBehind (List.mem_filterMap.mpr ⟨c, hc, of_decide_eq_true declared⟩)
  rw [DeclaresOnce, split, List.filter_append, noneBefore, List.nil_append,
    List.filter_cons_of_pos (by simp [Command.declared?]), noneBehind]

/-- An assertion behind a script is behind all its declarations. -/
theorem DeclaresOnce.before {s : Script} {f : FunSymbol} (once : s.DeclaresOnce f)
    (term : Term) : s.DeclaresOnceBefore f term := by
  have mem : .declareFun f ∈ s.commands := by
    have here : .declareFun f ∈ s.commands.filter (fun c => c.declared? = some f.name) := by
      rw [once]
      exact List.mem_singleton_self _
    exact (List.mem_filter.mp here).1
  obtain ⟨before, between, split⟩ := List.append_of_mem mem
  constructor
  · rw [DeclaresOnce, commands_push, List.filter_append, once,
      List.filter_cons_of_neg (by simp [Command.declared?]), List.filter_nil, List.append_nil]
  · refine ⟨before, between, ?_⟩
    rw [commands_push, split, List.append_assoc, List.cons_append]

end Script

namespace Registry

variable {r r' : Registry} {id id' : PredicateId} {p q : Predicate} {i j : Nat}

/-! ## No symbol is declared twice -/

/-- The declared symbols are the names of the versions, predicate by predicate. -/
theorem declaredSymbols_declarations (r : Registry) :
    r.declarations.declaredSymbols
      = r.predicates.flatMap fun p => (List.range (p.latest + 1)).map fun i =>
          (p.symbol.version i).name := by
  have versions (p : Predicate) :
      p.declarations.filterMap Command.declared?
        = (List.range (p.latest + 1)).map fun i => (p.symbol.version i).name := by
    rw [Predicate.declarations, VersionedSymbol.versions, List.map_map, List.filterMap_map]
    exact congrFun (List.filterMap_eq_map (f := fun i => (p.symbol.version i).name)) _
  simp only [declarations, Script.declaredSymbols, Script.commands_extend, List.filterMap_append,
    List.filterMap_flatMap, versions]
  rfl

/-- With distinct names, no symbol is declared twice. -/
theorem DistinctNames.nodup (distinct : r.DistinctNames) :
    r.declarations.declaredSymbols.Nodup := by
  rw [declaredSymbols_declarations, List.nodup_flatMap]
  constructor
  · intro p _
    refine List.nodup_range.map fun i j same => ?_
    exact (VersionedSymbol.name_version_inj.mp same).2
  · refine (List.pairwise_map.mp distinct).imp ?_
    intro p q different symbol hp hq
    obtain ⟨i, -, rfl⟩ := List.mem_map.mp hp
    obtain ⟨j, -, same⟩ := List.mem_map.mp hq
    exact different (VersionedSymbol.name_version_inj.mp same).1.symm

/-- With distinct names, a symbol tells the identity of its predicate and the version. -/
theorem DistinctNames.name_eq_iff (distinct : r.DistinctNames) {f g : FunSymbol}
    (hp : r.get id = .ok p) (hq : r.get id' = .ok q) (hf : p.symbolAt i = .ok f)
    (hg : q.symbolAt j = .ok g) : f.name = g.name ↔ id = id' ∧ i = j := by
  rw [Predicate.eq_version_of_symbolAt hf, Predicate.eq_version_of_symbolAt hg,
    VersionedSymbol.name_version_inj]
  constructor
  · rintro ⟨sameName, sameVersion⟩
    exact ⟨distinct.id_eq hp hq sameName, sameVersion⟩
  · rintro ⟨rfl, rfl⟩
    rw [hp] at hq
    rw [Except.ok.inj hq]
    exact ⟨rfl, rfl⟩

/-- In every state of every run, the declarations name no symbol twice, whatever the
names of the predicates look like and however many versions they have.  Two symbols are
one only if they are one version of one predicate. -/
theorem nodup_declaredSymbols (policy : DuplicatePolicy) (run : Nat) (steps : List Step) :
    ((start policy run).after steps).declarations.declaredSymbols.Nodup ∧
      ∀ id id' p q i j f g, ((start policy run).after steps).get id = .ok p →
        ((start policy run).after steps).get id' = .ok q → p.symbolAt i = .ok f →
        q.symbolAt j = .ok g → (f.name = g.name ↔ id = id' ∧ i = j) := by
  have distinct := distinctNames_after policy run steps
  refine ⟨distinct.nodup, ?_⟩
  intro id id' p q i j f g hp hq hf hg
  exact distinct.name_eq_iff hp hq hf hg

/-- The second version of `p` and the first one of `p_1`. -/
theorem nodup_declaredSymbols_underscore :
    let steps : List Step :=
      [⟨.createUnary "p", 2⟩, ⟨.addVersion ⟨1, 0⟩, 2⟩, ⟨.createUnary "p_1", 2⟩]
    let r := (start .reuseIdentical 1).after steps
    let p : Predicate := ⟨⟨"p", .relation [.int], 1⟩, .custom, .none, none, 0⟩
    let q : Predicate := ⟨⟨"p_1", .relation [.int], 0⟩, .custom, .none, none, 0⟩
    r.get ⟨1, 0⟩ = .ok p ∧ r.get ⟨1, 1⟩ = .ok q ∧
      p.symbolAt 1 = .ok ⟨"p_1", .relation [.int]⟩ ∧
      q.symbolAt 0 = .ok ⟨"p_1_0", .relation [.int]⟩ ∧
      r.declarations.declaredSymbols = ["p_0", "p_1", "p_1_0"] ∧
      r.declarations.declaredSymbols.Nodup ∧
      ("p_1" = "p_1_0" ↔ (⟨1, 0⟩ : PredicateId) = ⟨1, 1⟩ ∧ 1 = 0) := by
  intro steps r p q
  have there : r.get ⟨1, 0⟩ = .ok p ∧ r.get ⟨1, 1⟩ = .ok q := ⟨rfl, rfl⟩
  have symbols : p.symbolAt 1 = .ok ⟨"p_1", .relation [.int]⟩ ∧
      q.symbolAt 0 = .ok ⟨"p_1_0", .relation [.int]⟩ := ⟨rfl, rfl⟩
  obtain ⟨nodup, apart⟩ := nodup_declaredSymbols .reuseIdentical 1 steps
  refine ⟨there.1, there.2, symbols.1, symbols.2, rfl, nodup, ?_⟩
  exact apart _ _ p q 1 0 _ _ there.1 there.2 symbols.1 symbols.2

/-! ## Every application is declared -/

/-- At some moment of a run a predicate with a good identity was applied to `args`, in
its newest version or in another, which gave `e`.  The registry was not reset since. -/
def Applied (r : Registry) (steps : List Step) (args : List Expr) (e : Expr) : Prop :=
  ∃ past future id p, steps = past ++ future ∧ (∀ s ∈ future, s.operation ≠ .reset) ∧
    (r.after past).get id = .ok p ∧
    (p.apply args = .ok e ∨ ∃ version, p.applyAt version args = .ok e)

/-- A version that is there is declared. -/
theorem mem_declarations (hp : p ∈ r.predicates) (hi : i ≤ p.latest) :
    .declareFun (p.symbol.version i) ∈ r.declarations.commands := by
  refine List.mem_append_right _ (List.mem_flatMap.mpr ⟨p, hp, ?_⟩)
  refine List.mem_map_of_mem (List.mem_map_of_mem (List.mem_range.mpr ?_))
  exact Nat.lt_succ_of_le hi

/-- An application applies a version that is there. -/
theorem exists_version_of_apply {args : List Expr} {e : Expr}
    (h : p.apply args = .ok e ∨ ∃ version, p.applyAt version args = .ok e) :
    ∃ i ≤ p.latest, args.map Expr.sort = p.signature.domain ∧
      e = ⟨.app (p.symbol.version i).name (args.map Expr.term), p.signature.codomain⟩ := by
  rcases h with newest | ⟨version, applied⟩
  · obtain ⟨sorts, result⟩ := Predicate.apply_eq_ok_iff.mp newest
    exact ⟨p.latest, Nat.le_refl _, sorts, result⟩
  · obtain ⟨early, sorts, result⟩ := Predicate.applyAt_eq_ok_iff.mp applied
    exact ⟨version, early, sorts, result⟩

/-- What was applied in a run is declared at its end. -/
theorem Applied.mem_declarations {steps : List Step} {args : List Expr} {e : Expr}
    (h : r.Applied steps args e) :
    ∃ f : FunSymbol, e.term = .app f.name (args.map Expr.term) ∧
      f.signature = ⟨args.map Expr.sort, e.sort⟩ ∧
      .declareFun f ∈ (r.after steps).declarations.commands := by
  obtain ⟨past, future, id, p, rfl, noReset, good, applied⟩ := h
  obtain ⟨i, early, sorts, rfl⟩ := exists_version_of_apply applied
  obtain ⟨q, still, continues⟩ := (continues_after (r.after past) noReset).get good
  have mem : q ∈ (r.after (past ++ future)).predicates := by
    rw [after_append]
    exact mem_of_get still
  refine ⟨p.symbol.version i, rfl, ?_, ?_⟩
  · show p.signature = _
    rw [sorts]
  · rw [← continues.version]
    exact Registry.mem_declarations mem (Nat.le_trans early continues.latest)

/-- Whatever was applied since the last reset is the application of a symbol that the
declarations declare exactly once, with the sorts of the arguments and of the result.  So
a rule that leads from one such application to another can be asserted behind the
declarations. -/
theorem declared_of_applied (policy : DuplicatePolicy) (run : Nat) (steps : List Step) :
    (∀ args e, (start policy run).Applied steps args e →
      ∃ name, e.term = .app name (args.map Expr.term) ∧
        ((start policy run).after steps).declarations.DeclaresOnce
          ⟨name, ⟨args.map Expr.sort, e.sort⟩⟩) ∧
    (∀ bodyArgs body headArgs head vars, (start policy run).Applied steps bodyArgs body →
      (start policy run).Applied steps headArgs head →
      ∃ bodyName headName, body.term = .app bodyName (bodyArgs.map Expr.term) ∧
        head.term = .app headName (headArgs.map Expr.term) ∧
        Term.IsRule (.app bodyName (bodyArgs.map Expr.term))
          (.app headName (headArgs.map Expr.term)) vars
          (Term.hornRule vars body.term head.term) ∧
        ((start policy run).after steps).declarations.DeclaresOnceBefore
          ⟨bodyName, ⟨bodyArgs.map Expr.sort, body.sort⟩⟩
          (Term.hornRule vars body.term head.term) ∧
        ((start policy run).after steps).declarations.DeclaresOnceBefore
          ⟨headName, ⟨headArgs.map Expr.sort, head.sort⟩⟩
          (Term.hornRule vars body.term head.term)) := by
  have distinct := (distinctNames_after policy run steps).nodup
  have once {args : List Expr} {e : Expr} (applied : (start policy run).Applied steps args e) :
      ∃ name, e.term = .app name (args.map Expr.term) ∧
        ((start policy run).after steps).declarations.DeclaresOnce
          ⟨name, ⟨args.map Expr.sort, e.sort⟩⟩ := by
    obtain ⟨⟨name, signature⟩, term, rfl, mem⟩ := applied.mem_declarations
    exact ⟨name, term, Script.declaresOnce_of_mem distinct mem⟩
  constructor
  · intro args e applied
    exact once applied
  · intro bodyArgs body headArgs head vars appliedBody appliedHead
    obtain ⟨bodyName, bodyTerm, bodyOnce⟩ := once appliedBody
    obtain ⟨headName, headTerm, headOnce⟩ := once appliedHead
    refine ⟨bodyName, headName, bodyTerm, headTerm, ?_, bodyOnce.before _, headOnce.before _⟩
    rw [← bodyTerm, ← headTerm]
    exact Term.isRule_hornRule vars body.term head.term

/-- An old version in the body of a rule and the newest one in its head. -/
theorem declared_of_applied_versions :
    let steps : List Step :=
      [⟨.createUnary "p", 2⟩, ⟨.addVersion ⟨1, 0⟩, 2⟩, ⟨.createUnary "p_1", 2⟩]
    let declarations := ((start .reuseIdentical 1).after steps).declarations
    let three := Expr.int 3
    let body : Expr := ⟨.app "p_0" [three.term], .bool⟩
    let head : Expr := ⟨.app "p_1" [three.term], .bool⟩
    (start .reuseIdentical 1).Applied steps [three] body ∧
      (start .reuseIdentical 1).Applied steps [three] head ∧
      Term.IsRule body.term head.term [] (Term.hornRule [] body.term head.term) ∧
      declarations.DeclaresOnceBefore ⟨"p_0", .relation [.int]⟩
        (Term.hornRule [] body.term head.term) ∧
      declarations.DeclaresOnceBefore ⟨"p_1", .relation [.int]⟩
        (Term.hornRule [] body.term head.term) := by
  intro steps declarations three body head
  have old : (start .reuseIdentical 1).Applied steps [three] body :=
    ⟨steps.take 1, steps.drop 1, ⟨1, 0⟩, _, rfl, by simp [steps, Operation.createUnary], rfl,
      .inr ⟨0, rfl⟩⟩
  have newest : (start .reuseIdentical 1).Applied steps [three] head :=
    ⟨steps.take 2, steps.drop 2, ⟨1, 0⟩, _, rfl, by simp [steps, Operation.createUnary], rfl,
      .inl rfl⟩
  obtain ⟨bodyName, headName, bodyTerm, headTerm, isRule, bodyOnce, headOnce⟩ :=
    (declared_of_applied .reuseIdentical 1 steps).2 [three] body [three] head [] old newest
  cases bodyTerm
  cases headTerm
  exact ⟨old, newest, isRule, bodyOnce, headOnce⟩

end Registry

end Hornbook
