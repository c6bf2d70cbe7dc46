import StackCode.Proofs.Origins

/-!
# Operands and the tables of a unit

The machine looks up the operands of instructions in the tables of their unit and checks nothing. This
file says what it relies on.

* `CodeObject.Refers`: the operand of an operation lies within its table;
* `ChildRole`, `Instruction.childRole`: instructions that make instances, captures, and all others;
* `TableConsistent`: operands, instances, counts and flags of a unit agree;
* `Instantiates`: how the instances of a unit come about, one after the other;
* `Flags` of a scope, bit by bit.
-/

namespace StackCode

/-! ### What the machine relies on -/

/-- The operand `n` of an operation lies within the table of the unit that it indexes; an operation
without a table can stand in the unit. -/
def CodeObject.Refers (u : CodeObject) (n : Nat) : Opcode → Prop
  | .loadLocal | .storeLocal | .captureLocal => n < u.localCount
  | .loadOuter | .storeOuter | .captureOuter => n < u.outerCount
  | .hasArg | .paramEnd => n < u.argCount
  | .loadConst => n < u.constants.length
  | .loadGlobal | .storeGlobal | .getMember | .setMember | .getMethod | .defineMember =>
    ∃ name, u.constants[n]? = some (.string name)
  | .yield => u.has .generator = true
  | _ => True

/-- What an instruction has to do with the children of its unit. -/
inductive ChildRole where
  /-- It makes an instance of a child. -/
  | makes (child : Nat)
  /-- It captures a variable for the instance before it. -/
  | captures
  | other
  deriving DecidableEq, Repr

/-- The child of which an instance is made. -/
def ChildRole.child? : ChildRole → Option Nat
  | makes k => some k
  | _ => none

def Instruction.childRole (i : Instruction) : ChildRole :=
  match i.opcode? with
  | some .captureLocal | some .captureOuter => .captures
  | some .makeClosure | some .makeClass | some .makeNamespace => .makes i.unsigned
  | _ => .other

/-- The roles of the instructions, in order. -/
def CodeObject.childRoles (u : CodeObject) : List ChildRole := u.code.map Instruction.childRole

/-- The number of captures that follow position `p` without a gap. -/
def capturesBehind (roles : List ChildRole) (p : Nat) : Nat :=
  ((roles.drop (p + 1)).takeWhile (· == .captures)).length

/-- The operands, the instances, the counts and the flags of a unit agree with its tables. -/
structure CodeObject.TableConsistent (u : CodeObject) : Prop where
  /-- Every word is an instruction whose operand lies within its table. -/
  refers : ∀ i ∈ u.code, ∃ op, i.opcode? = some op ∧ u.Refers i.unsigned op
  args_le : u.argCount ≤ u.localCount
  argNames : u.argNames.length = u.argCount
  /-- Instances are made of all children, in their order. -/
  instances : u.childRoles.filterMap ChildRole.child? = List.range u.children.length
  /-- An instance is followed by one capture for each outer variable of the child. -/
  captured : ∀ p k, u.childRoles[p]? = some (.makes k) →
    ∃ v, u.children[k]? = some v ∧ capturesBehind u.childRoles p = v.outerCount
  /-- There are no other captures. -/
  owned : ∀ q, u.childRoles[q]? = some .captures →
    ∃ p k, u.childRoles[p]? = some (.makes k) ∧ p < q ∧ q ≤ p + capturesBehind u.childRoles p
  debugInfo : u.has .debugInfo = u.lifetimes.isSome
  exceptionBlocks : u.has .exceptionBlocks = true ↔
    ∃ i ∈ u.code, i.opcode? = some .tryCatch ∨ i.opcode? = some .tryFinally
  namedParams : u.has .namedParams = true ↔ ∃ i ∈ u.code, i.opcode? = some .hasArg

/-! ### Instances -/

/-- The roles of instructions that make instances of the children `ks`: each child is instantiated
when it is finished, and its captures follow at once. -/
inductive Instantiates : List CodeObject → List ChildRole → Prop where
  | nil : Instantiates [] []
  | other {ks : List CodeObject} {roles : List ChildRole} (h : Instantiates ks roles) :
      Instantiates ks (roles ++ [.other])
  | unit {ks : List CodeObject} {roles : List ChildRole} (v : CodeObject) (h : Instantiates ks roles) :
      Instantiates (ks ++ [v]) (roles ++ .makes ks.length :: List.replicate v.outerCount .captures)

namespace Instantiates

variable {ks : List CodeObject} {roles : List ChildRole}

theorem others (h : Instantiates ks roles) (n : Nat) :
    Instantiates ks (roles ++ List.replicate n .other) := by
  induction n with
  | zero =>
    rw [List.replicate_zero, List.append_nil]
    exact h
  | succ n ih =>
    rw [List.replicate_succ', ← List.append_assoc]
    exact ih.other

/-- An instruction at the end that has nothing to do with children can be taken back. -/
theorem of_other (h : Instantiates ks (roles ++ [.other])) : Instantiates ks roles := by
  generalize hall : roles ++ [.other] = all at h
  cases h with
  | nil => simp at hall
  | other h =>
    rw [(List.append_inj' hall rfl).1]
    exact h
  | @unit ks roles' v h =>
    -- the last instruction would be an instance or a capture
    have hlast := congrArg List.getLast? hall
    rw [List.getLast?_concat] at hlast
    cases hv : v.outerCount with
    | zero => simp [hv] at hlast
    | succ n =>
      rw [hv, List.replicate_succ', ← List.cons_append, ← List.append_assoc,
        List.getLast?_concat] at hlast
      cases hlast

theorem instances (h : Instantiates ks roles) :
    roles.filterMap ChildRole.child? = List.range ks.length := by
  have hnone : ∀ n, (List.replicate n ChildRole.captures).filterMap ChildRole.child? = [] := by
    intro n
    rw [List.filterMap_replicate]
    rfl
  induction h with
  | nil => rfl
  | other _ ih =>
    rw [List.filterMap_append, ih]
    exact List.append_nil _
  | @unit ks roles v _ ih =>
    have hmakes : ChildRole.child? (.makes ks.length) = some ks.length := rfl
    rw [List.filterMap_append, ih, List.filterMap_cons_some hmakes, hnone, List.length_append,
      List.length_singleton, List.range_succ]

/-- What follows captures does not change their number, unless it is a capture. -/
theorem takeWhile_captures (more : List ChildRole) {r : ChildRole} (hr : r ≠ .captures) :
    (roles ++ r :: more).takeWhile (· == .captures) = roles.takeWhile (· == .captures) := by
  induction roles with
  | nil => simp [hr]
  | cons x roles ih =>
    rw [List.cons_append, List.takeWhile_cons, List.takeWhile_cons, ih]

theorem capturesBehind_append {p : Nat} (more : List ChildRole) {r : ChildRole} (hr : r ≠ .captures)
    (hp : p < roles.length) :
    capturesBehind (roles ++ r :: more) p = capturesBehind roles p := by
  unfold capturesBehind
  rw [List.drop_append_of_le_length hp, takeWhile_captures more hr]

theorem capturesBehind_length (r : ChildRole) (n : Nat) :
    capturesBehind (roles ++ r :: List.replicate n .captures) roles.length = n := by
  unfold capturesBehind
  rw [List.drop_append, List.drop_eq_nil_of_le (Nat.le_succ _),
    show roles.length + 1 - roles.length = 1 by omega]
  simp

theorem captured {p k : Nat} (h : Instantiates ks roles) (hp : roles[p]? = some (.makes k)) :
    ∃ v, ks[k]? = some v ∧ capturesBehind roles p = v.outerCount := by
  induction h with
  | nil => simp at hp
  | @other ks roles _ ih =>
    have hlt : p < roles.length := by
      refine Nat.not_le.mp fun hle => ?_
      rw [List.getElem?_append_right hle] at hp
      cases hn : p - roles.length with
      | zero => simp [hn] at hp
      | succ n => simp [hn] at hp
    rw [List.getElem?_append_left hlt] at hp
    rw [capturesBehind_append [] (r := .other) nofun hlt]
    exact ih hp
  | @unit ks roles v _ ih =>
    rcases Nat.lt_trichotomy p roles.length with hlt | rfl | hgt
    · rw [List.getElem?_append_left hlt] at hp
      obtain ⟨w, hw, hlen⟩ := ih hp
      refine ⟨w, getElem?_of_initial (List.prefix_append _ _) hw, ?_⟩
      rw [capturesBehind_append _ (r := .makes _) nofun hlt]
      exact hlen
    · rw [List.getElem?_append_right (Nat.le_refl _), Nat.sub_self] at hp
      obtain rfl : ks.length = k := by simpa using hp
      exact ⟨v, by simp, capturesBehind_length _ _⟩
    · rw [List.getElem?_append_right (Nat.le_of_lt hgt),
        show p - roles.length = p - roles.length - 1 + 1 by omega, List.getElem?_cons_succ] at hp
      have := List.eq_of_mem_replicate (List.mem_of_getElem? hp)
      cases this

theorem owned {q : Nat} (h : Instantiates ks roles) (hq : roles[q]? = some .captures) :
    ∃ p k, roles[p]? = some (.makes k) ∧ p < q ∧ q ≤ p + capturesBehind roles p := by
  -- what was found among the earlier instructions is found among all of them
  have hearlier : ∀ {roles more : List ChildRole} {r : ChildRole}, r ≠ .captures →
      (∃ p k, roles[p]? = some (.makes k) ∧ p < q ∧ q ≤ p + capturesBehind roles p) →
      ∃ p k, (roles ++ r :: more)[p]? = some (.makes k) ∧ p < q
        ∧ q ≤ p + capturesBehind (roles ++ r :: more) p := by
    rintro roles more r hr ⟨p, k, hp, hlt, hle⟩
    refine ⟨p, k, getElem?_of_initial (List.prefix_append _ _) hp, hlt, ?_⟩
    rw [capturesBehind_append more hr (List.getElem?_eq_some_iff.mp hp).1]
    exact hle
  induction h with
  | nil => simp at hq
  | @other ks roles _ ih =>
    have hlt : q < roles.length := by
      refine Nat.not_le.mp fun hle => ?_
      rw [List.getElem?_append_right hle] at hq
      cases hn : q - roles.length with
      | zero => simp [hn] at hq
      | succ n => simp [hn] at hq
    rw [List.getElem?_append_left hlt] at hq
    exact hearlier nofun (ih hq)
  | @unit ks roles v _ ih =>
    by_cases hlt : q < roles.length
    · rw [List.getElem?_append_left hlt] at hq
      exact hearlier nofun (ih hq)
    · have hin := (List.getElem?_eq_some_iff.mp hq).1
      rw [List.length_append, List.length_cons, List.length_replicate] at hin
      have hne : q ≠ roles.length := by
        rintro rfl
        simp at hq
      refine ⟨roles.length, ks.length, by simp, by omega, ?_⟩
      rw [capturesBehind_length]
      omega

end Instantiates

/-! ### Flags -/

/-- The flags of a code object say what the scope that it was says. -/
theorem Scope.has_flags (s : Scope) :
    s.toCodeObject.has .debugInfo = s.recorder.isSome
      ∧ s.toCodeObject.has .exceptionBlocks = s.protects
      ∧ s.toCodeObject.has .namedParams = s.signature.defaults
      ∧ s.toCodeObject.has .generator = s.signature.generator := by
  show s.flags.contains _ = _ ∧ s.flags.contains _ = _ ∧ s.flags.contains _ = _
    ∧ s.flags.contains _ = _
  unfold flags
  generalize s.recorder.isSome = a, s.protects = b, s.signature.variadic = c,
    s.signature.defaults = d, s.signature.generator = e
  revert a b c d e
  decide

end StackCode
