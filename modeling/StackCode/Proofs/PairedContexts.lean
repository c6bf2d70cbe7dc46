import StackCode.Proofs.DraftPairs

/-!
# Contexts with and without tail calls

The same tree is lowered with tail calls and without. The contexts of a node differ in the name by
which the function calls itself, and in the cleanups of its regions.

* `CleanupPair`, `RegionPairs`, `ContextPair`: pairs of cleanups, regions and contexts, together with
  what surrounds the node;
* `ContextPair.inLoop`, `inRegion`, `inFunction`, …: pairs of contexts further inside;
* `Draft.Untails.unwindTo`, `lowerBreak`, `returnTop`, …: regions are left on both sides;
* `Draft.Untails.callOp`, `guarded`, …: the other pieces of scripts that do not recurse on the tree.
-/

namespace StackCode

open Draft

/-! ### Pairs of contexts -/

/-- Two cleanups correspond wherever they are lowered. -/
inductive CleanupPair :
    Option (List Loop → Draft) → Option (List Loop → Draft) → Option CleanupTails → Prop where
  | none : CleanupPair none none none
  | some {c c' : List Loop → Draft} {tails : CleanupTails}
      (h : ∀ P loops, Draft.Untails P false (c loops) (c' loops) (tails (loops.map Loop.mark))) :
      CleanupPair (some c) (some c') (some tails)

/-- The regions of two contexts correspond. -/
inductive RegionPairs : List Region → List Region → List (Option CleanupTails) → Prop where
  | nil : RegionPairs [] [] []
  | cons {r r' : Region} {c : Option CleanupTails} {rs rs' : List Region}
      {cs : List (Option CleanupTails)} (hcatch : r'.catchInstalled = r.catchInstalled)
      (hcleanup : CleanupPair r.cleanup r'.cleanup c) (hrest : RegionPairs rs rs' cs) :
      RegionPairs (r :: rs) (r' :: rs') (c :: cs)

theorem RegionPairs.length_eq {rs rs' : List Region} {cs : List (Option CleanupTails)}
    (h : RegionPairs rs rs' cs) : rs'.length = rs.length ∧ cs.length = rs.length := by
  induction h with
  | nil => exact ⟨rfl, rfl⟩
  | cons _ _ _ ih => exact ⟨congrArg Nat.succ ih.1, congrArg Nat.succ ih.2⟩

/-- The contexts of a node, with tail calls and without, and what surrounds the node. -/
structure ContextPair (ctx ctx' : Context) (E : Surroundings) : Prop where
  tailCalls : ctx.config.tailCalls = true
  tailCalls' : ctx'.config.tailCalls = false
  lineMarkers : ctx'.config.lineMarkers = ctx.config.lineMarkers
  kind : E.kind = ctx.kind
  kind' : ctx'.kind = ctx.kind
  generator' : ctx'.generator = ctx.generator
  self : E.self = ctx.self
  self' : ctx'.self = none
  loops : E.loops = ctx.loops.map Loop.mark
  loops' : ctx'.loops = ctx.loops
  regions : RegionPairs ctx.regions ctx'.regions E.regions

namespace ContextPair

variable {ctx ctx' : Context} {E : Surroundings}

theorem withLoops (h : ContextPair ctx ctx' E) (loops : List Loop) :
    ContextPair { ctx with loops } { ctx' with loops } { E with loops := loops.map Loop.mark } :=
  { h with loops := rfl, loops' := rfl }

theorem inLoop (h : ContextPair ctx ctx' E) (breakTo : Label) (continueTo : Option Label) :
    ContextPair (ctx.inLoop breakTo continueTo) (ctx'.inLoop breakTo continueTo)
      (E.inLoop continueTo.isSome) := by
  refine { h with loops := ?_, loops' := ?_ }
  · show _ :: E.loops = _ :: ctx.loops.map Loop.mark
    rw [h.loops, h.regions.length_eq.2]
    rfl
  · show _ :: ctx'.loops = _ :: ctx.loops
    rw [h.loops', h.regions.length_eq.1]

theorem inRegion (h : ContextPair ctx ctx' E) (installed : Bool)
    {c c' : Option (List Loop → Draft)} {tails : Option CleanupTails} (hc : CleanupPair c c' tails) :
    ContextPair (ctx.inRegion installed c) (ctx'.inRegion installed c') (E.inRegion tails) :=
  { h with regions := .cons rfl hc h.regions }

theorem inObject (h : ContextPair ctx ctx' E) :
    ContextPair ctx.inObject ctx'.inObject .inObject :=
  ⟨h.tailCalls, h.tailCalls', h.lineMarkers, rfl, rfl, rfl, rfl, rfl, rfl, rfl, .nil⟩

theorem inFunction (h : ContextPair ctx ctx' E) (binding : Option String) (f : Function) :
    ContextPair (ctx.inFunction binding f) (ctx'.inFunction binding f)
      (.inFunction binding f) := by
  refine ⟨h.tailCalls, h.tailCalls', h.lineMarkers, rfl, rfl, rfl, ?_, ?_, rfl, rfl, .nil⟩
  · show binding.filter f.bindsSelf = binding.filter _
    simp only [h.tailCalls, Bool.true_and]
  · show binding.filter _ = none
    simp only [h.tailCalls', Bool.false_and]
    cases binding <;> rfl

theorem isTail' (h : ContextPair ctx ctx' E) (terminal : Bool) (e : Expr) :
    ctx'.isTail terminal e = false := by
  rw [Context.isTail, h.self']
  exact Bool.and_false terminal

/-- Whether a call is a returned one. -/
theorem isTail_eq (h : ContextPair ctx ctx' E) (terminal : Bool) (e : Expr) :
    ctx.isTail terminal e = (terminal && E.self.any fun name => e.isCallOf name) := by
  rw [Context.isTail, h.self]

theorem isTerminal_eq (h : ContextPair ctx ctx' E) :
    ctx'.isTerminal = ctx.isTerminal ∧ E.regions.isEmpty = ctx.isTerminal := by
  have hregions := h.regions
  unfold Context.isTerminal
  generalize ctx.regions = rs at hregions ⊢
  generalize ctx'.regions = rs' at hregions ⊢
  generalize E.regions = cs at hregions ⊢
  cases hregions <;> exact ⟨rfl, rfl⟩

/-- Where no region is left, a return is nothing but a return. -/
theorem returnTop_eq (h : ContextPair ctx ctx' E) (ht : ctx.isTerminal = true) :
    ctx.returnTop = plain .ret ∧ ctx'.returnTop = plain .ret ∧ E.unwindTo 0 = .none := by
  have hnil : ctx.regions = [] := List.isEmpty_iff.mp ht
  have hregions := h.regions
  rw [hnil] at hregions
  obtain ⟨hnil', hnone⟩ := hregions.length_eq
  refine ⟨?_, ?_, ?_⟩
  · rw [Context.returnTop, Context.unwindTo, hnil]
    rfl
  · rw [Context.returnTop, Context.unwindTo, List.length_eq_zero_iff.mp hnil']
    rfl
  · rw [Surroundings.unwindTo, List.length_eq_zero_iff.mp hnone]
    rfl

end ContextPair

/-! ### Pieces of scripts -/

namespace Draft.Untails

variable {P : Script → Prop} {r : Bool} {d d' : Draft} {tails tails' : Tails}
  {ctx ctx' : Context} {E : Surroundings}

theorem value (v : Value) : Untails P r v.lower v.lower .none := by
  unfold Value.lower
  split <;> exact step rfl

theorem declareAndStore {x : String} :
    Untails P r (declareAndStore x) (declareAndStore x) .none :=
  before (step rfl) (step rfl)

theorem returnNil : Untails P r StackCode.returnNil StackCode.returnNil .none :=
  before (step rfl) (step rfl)

theorem markLine (h : ContextPair ctx ctx' E) {line : Nat} :
    Untails P r (markLine ctx line) (markLine ctx' line) .none := by
  unfold StackCode.markLine
  rw [h.lineMarkers]
  split
  · exact final
  · exact step rfl

theorem predeclare (h : ContextPair ctx ctx' E) {x : String} :
    Untails P r (predeclare ctx x) (predeclare ctx' x) .none := by
  unfold StackCode.predeclare
  rw [h.kind']
  cases ctx.kind with
  | function => exact step rfl
  | global => exact nil
  | object => exact nil

theorem bindDeclared (h : ContextPair ctx ctx' E) {x : String} :
    Untails P r (bindDeclared ctx x) (bindDeclared ctx' x) .none := by
  unfold StackCode.bindDeclared
  rw [h.kind']
  cases ctx.kind <;> exact step rfl

/-- A call that is no tail call. -/
theorem callOp {args : List Arg} : Untails P r (callOp args false) (callOp args false) .none := by
  unfold StackCode.callOp
  simp only [Bool.false_eq_true, if_false]
  split
  · unfold callNamedOp
    simp only
    split
    · exact final
    · exact step rfl
  · exact step rfl

theorem methodOp {args : List Arg} {line : Nat} :
    Untails P r (methodOp args line) (methodOp args line) .none := by
  unfold StackCode.methodOp
  split
  · exact refuse
  · exact step rfl

theorem unmixed (h : Untails P r d d' tails) (args : List Arg) (call : String) (line : Nat) :
    Untails P r (unmixed args call line d) (unmixed args call line d') tails := by
  unfold StackCode.unmixed
  split
  · exact refuse
  · exact h

/-! ### Regions are left -/

theorem unwind {rs rs' : List Region} {cs : List (Option CleanupTails)} (h : RegionPairs rs rs' cs)
    (loops : List Loop) (n : Nat) :
    Untails P false (unwind loops n rs) (unwind loops n rs')
      (unwindTails (loops.map Loop.mark) n cs) := by
  induction h generalizing n with
  | nil => cases n <;> exact nil
  | @cons region region' c rs rs' cs hcatch hcleanup _ ih =>
    cases n with
    | zero => exact nil
    | succ n =>
      have hcatch' : Untails P false (if region.catchInstalled then plain .endTry else Draft.nil)
          (if region'.catchInstalled then plain .endTry else Draft.nil) .none := by
        rw [hcatch]
        split
        · exact step rfl
        · exact nil
      obtain ⟨installed, cleanup⟩ := region
      obtain ⟨installed', cleanup'⟩ := region'
      cases hcleanup with
      | none => exact (hcatch'.after nil).append (ih n)
      | some hc => exact (hcatch'.after (after (step rfl) (hc P loops))).append (ih n)

theorem unwindTo (h : ContextPair ctx ctx' E) (depth : Nat) :
    Untails P false (ctx.unwindTo depth) (ctx'.unwindTo depth) (E.unwindTo depth) := by
  have hu := unwind (P := P) h.regions ctx.loops (ctx.regions.length - depth)
  rw [Context.unwindTo, Context.unwindTo, Surroundings.unwindTo, h.loops, h.loops',
    h.regions.length_eq.1, h.regions.length_eq.2]
  exact hu

theorem lowerBreak (h : ContextPair ctx ctx' E) {line : Nat} :
    Untails P false (lowerBreak ctx line) (lowerBreak ctx' line) E.breakTails := by
  unfold StackCode.lowerBreak Surroundings.breakTails
  rw [h.loops', h.loops]
  cases ctx.loops with
  | nil => exact refuse
  | cons l loops => exact (unwindTo h l.depth).before (step rfl)

/-- The loop that is continued, with its mark. -/
theorem find?_continuable (loops : List Loop) :
    (loops.map Loop.mark).find? LoopMark.continuable
      = (loops.find? fun l => l.continueTo.isSome).map Loop.mark := by
  rw [List.find?_map]
  rfl

theorem continuable?_eq (loops : List Loop) :
    continuable? loops = (loops.find? fun l => l.continueTo.isSome).bind
      fun l => l.continueTo.map fun label => (label, l.depth) := by
  induction loops with
  | nil => rfl
  | cons l loops ih =>
    obtain ⟨breakTo, continueTo, depth⟩ := l
    cases continueTo with
    | none => exact ih
    | some label => rfl

theorem lowerContinue (h : ContextPair ctx ctx' E) {line : Nat} :
    Untails P false (lowerContinue ctx line) (lowerContinue ctx' line) E.continueTails := by
  unfold StackCode.lowerContinue Surroundings.continueTails
  rw [h.loops', h.loops, find?_continuable, continuable?_eq]
  cases hl : ctx.loops.find? fun l => l.continueTo.isSome with
  | none => exact refuse
  | some l =>
    have hsome := List.find?_some hl
    obtain ⟨label, hlabel⟩ := Option.isSome_iff_exists.mp hsome
    simp only [Option.bind_some, hlabel, Option.map_some]
    exact (unwindTo h l.depth).before (step rfl)

/-- A value is returned through the regions around it, or at once. -/
theorem returnTop (h : ContextPair ctx ctx' E)
    (hd : Untails P ctx.isTerminal d d' tails) :
    Untails P false (d ++ ctx.returnTop) (d' ++ ctx'.returnTop) (tails ++ E.unwindTo 0) := by
  cases ht : ctx.isTerminal with
  | false =>
    rw [ht] at hd
    exact hd.append ((unwindTo h 0).before (step rfl))
  | true =>
    obtain ⟨hret, hret', hnone⟩ := h.returnTop_eq ht
    rw [hret, hret', hnone, Tails.append_none]
    exact hd.ret

/-! ### Handlers and cleanups -/

end Draft.Untails

/-- Two drafts that may be missing correspond. -/
inductive OptionPair : Option Draft → Option Draft → Tails → Prop where
  | none : OptionPair none none .none
  | some {d d' : Draft} {tails : Tails} (h : ∀ P, Draft.Untails P false d d' tails) :
      OptionPair (some d) (some d') tails

/-- A cleanup that is lowered at the end of its region. -/
theorem CleanupPair.lowered {c c' : Option (List Loop → Draft)} {tails : Option CleanupTails}
    (h : CleanupPair c c' tails) (loops : List Loop) :
    OptionPair (c.map (· loops)) (c'.map (· loops))
      (tails.elim .none (· (loops.map Loop.mark))) := by
  cases h with
  | none => exact .none
  | some h => exact .some fun P => h P loops

namespace Draft.Untails

variable {P : Script → Prop} {d d' : Draft} {tails tails' : Tails} {clause clause' : Option Draft}

theorem guarded (hc : OptionPair clause clause' tails') (hd : Untails P false d d' tails) :
    Untails P false (guarded clause d) (guarded clause' d') (tails ++ tails') := by
  cases hc with
  | none =>
    rw [Tails.append_none]
    exact hd
  | some hc =>
    unfold StackCode.guarded
    refine withLabel fun l => ((after (step rfl) hd).before (step rfl)).append (withLabel fun done => ?_)
    exact (after (before (before (step rfl) (step rfl)) (step rfl)) (hc P)).before (step rfl)

theorem cleaned (hc : OptionPair clause clause' tails') (hd : Untails P false d d' tails) :
    Untails P false (cleaned clause d) (cleaned clause' d') (tails ++ tails') := by
  cases hc with
  | none =>
    rw [Tails.append_none]
    exact hd
  | some hc =>
    unfold StackCode.cleaned
    exact withLabel fun l => (((((after (step rfl) hd).before (step rfl)).before
      (step rfl)).append (hc P)).before (step rfl))

end Draft.Untails

end StackCode
