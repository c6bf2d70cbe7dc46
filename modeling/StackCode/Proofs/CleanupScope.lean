import StackCode.Proofs.CopiedTrees
import StackCode.Proofs.HandlerBalance
import StackCode.Proofs.LoweredOrder

/-!
# Cleanups see the variables of the place that is left

A cleanup is lowered again at each jump out of its region. There it finds the variables that were
declared between the region and the jump, and the loops that were opened in between, so that a name in it
can mean another variable than in the copy behind the region. Apart from these, the copies mean the same.

* `TryFinally`: a statement with a cleanup;
* `TryFinally.Ends`, `TryFinally.Leaves`: the copy of its cleanup behind the region, and the copies where the
  region is left;
* `Task.Copied`: two copies of a call, and what lies between them;
* `cleanup_copies`: the copies of a cleanup in a compiled program;
* `shadowedCleanup_copies`: two copies of a cleanup that read different variables.
-/

namespace StackCode

open Draft

/-! ### The calls of a compiled program -/

/-- Compiling a program comes to a call. -/
def Program.Reaches (config : Config) (program : List Stmt) (t : Task) (s : Setting) (p : Stage) : Prop :=
  Task.Reaches (fun _ _ => True) (.stmts program) { config } ⟨{}, .start config⟩ t s p

namespace Program

variable {config : Config} {program : List Stmt} {code : CodeObject} {t : Task} {s : Setting} {p : Stage}

theorem exists_leadsNarrow (hc : compile config program = .ok code) :
    ∃ q, ((Task.stmts program).lowered { config }).LeadsNarrow ⟨{}, .start config⟩ q := by
  obtain ⟨rest, hrest⟩ := Option.ne_none_iff_exists'.mp (rest?_of_compile hc)
  obtain ⟨final, ha⟩ := compile_eq_ok.mp hc
  obtain ⟨b, -, hrun, -⟩ := assemble_eq_ok.mp ha
  rw [script_of_compile hc] at hrun
  obtain ⟨hcount, hinside⟩ := (narrow_and_cut_eq_of_compile hc).1
  have hmarks : b.current.labels.marks.size = 0 + _ := Step.marks_of_runAll hrun
  rw [Nat.zero_add] at hmarks
  have hprogram : (draft config program).LeadsNarrow ⟨{}, .start config⟩ ⟨rest, b⟩ :=
    ⟨⟨hrest, hrun⟩, hmarks ▸ hcount, hinside⟩
  obtain ⟨q, hq, -⟩ := LeadsNarrow.exists_of_append hprogram
  exact ⟨q, hq⟩

theorem Reaches.leadsNarrow (h : Reaches config program t s p)
    (hc : compile config program = .ok code) : ∃ q, (t.lowered s).LeadsNarrow p q := by
  obtain ⟨q, hq⟩ := exists_leadsNarrow hc
  exact Task.Reaches.leadsNarrow h hq

theorem Reaches.numbered (h : Reaches config program t s p) : p.Numbered := Task.Reaches.numbered h rfl

end Program

/-! ### Copies of a cleanup -/

/-- A statement with a cleanup. -/
structure TryFinally where
  body : List Stmt
  handler : Option Catch
  cleanup : List Stmt
  line : Nat

/-- In the same unit, where more than `k` regions are open. -/
def Task.Deeper (k : Nat) (inside : Bool) (s : Setting) : Prop := inside = false ∧ k < s.regions.length

namespace TryFinally

/-- The call for the statement. -/
def task (T : TryFinally) : Task := .form (.tryCatch T.body T.handler (some T.cleanup)) T.line

/-- The statement is compiled in the setting `s` from the stage `p` on, and its cleanup behind the region from
the stage `q` on. -/
def Ends (T : TryFinally) (s : Setting) (p q : Stage) : Prop :=
  (Plan.ofTask T.task s).Makes p false (.stmts T.cleanup) s q

/-- The statement is compiled in the setting `s` from the stage `p` on. A call in its region comes to an exit,
where the region is left and the cleanup is compiled in the setting `s'` from the stage `q` on. -/
inductive Leaves (T : TryFinally) (s : Setting) (p : Stage) (s' : Setting) (q : Stage) : Prop where
  | intro {caught : Bool} {t : Task} {n : Nat} {s₂ : Setting} {p₁ p₂ : Stage}
      (hin : (Plan.ofTask T.task s).Makes p false t (s.inRegion caught (some T.cleanup)) p₁)
      (hreach : Task.Reaches (Task.Deeper s.regions.length) t (s.inRegion caught (some T.cleanup)) p₁
        (.unwind (n + 1)) s₂ p₂)
      (hlast : s₂.regions.length = s.regions.length + 1)
      (hout : (Plan.ofTask (.unwind (n + 1)) s₂).Makes p₂ false (.stmts T.cleanup) s' q) :
      Leaves T s p s' q

end TryFinally

/-! ### From the region to the exit -/

namespace Task.Reaches

variable {rest : List Protection} {t t' : Task} {s s' : Setting} {p p' : Stage}

/-- A call in a region or in one further in, in the same unit. -/
theorem nested {r : Protection} (h : Reaches (Deeper rest.length) t s p t' s' p')
    (hr : r :: rest <:+ s.regions) :
    r :: rest <:+ s'.regions ∧ s' = { s with loops := s'.loops, regions := s'.regions }
      ∧ s.loops <:+ s'.loops ∧ p.Grows p' := by
  induction h with
  | here => exact ⟨hr, rfl, List.suffix_refl _, .refl _⟩
  | @call t t₁ t₂ s s₁ s₂ p p₁ p₂ inside hm hok _ ih =>
    obtain ⟨rfl, hlength⟩ := hok
    obtain ⟨hunit, hloops, hregions⟩ := hm.of_all (Plan.steady_ofTask t s)
    have hr₁ : r :: rest <:+ s₁.regions := by
      obtain hsuffix | ⟨caught, cleanup, -, rfl⟩ := hregions
      · exact List.suffix_of_suffix_length_le hr hsuffix hlength
      · exact hr.trans (List.suffix_cons _ _)
    obtain ⟨hr₂, hunit', hloops', hgrows⟩ := ih hr₁
    refine ⟨hr₂, ?_, hloops.trans hloops', (hm.grows (Plan.steady_ofTask t s)).trans hgrows⟩
    rw [hunit', hunit]

/-- A region that is open around a call was open before, or a statement that the walk came to has opened it.
From then on, all calls were in the region or in one further in. -/
theorem opened {caught : Bool} {cleanup : List Stmt} (h : Reaches (fun _ _ => True) t s p t' s' p')
    (hr : ⟨caught, some cleanup⟩ :: rest <:+ s'.regions) :
    (⟨caught, some cleanup⟩ :: rest <:+ s.regions ∧ Reaches (Deeper rest.length) t s p t' s' p')
      ∨ ∃ (T : TryFinally) (s₀ : Setting) (p₀ : Stage) (t₁ : Task) (p₁ : Stage),
        T.cleanup = cleanup ∧ s₀.regions = rest ∧ Reaches (fun _ _ => True) t s p T.task s₀ p₀
        ∧ (Plan.ofTask T.task s₀).Makes p₀ false t₁ (s₀.inRegion caught (some cleanup)) p₁
        ∧ Reaches (Deeper rest.length) t₁ (s₀.inRegion caught (some cleanup)) p₁ t' s' p' := by
  induction h with
  | here => exact .inl ⟨hr, .here⟩
  | @call t t₁ t₂ s s₁ s₂ p p₁ p₂ inside hm _ _ ih =>
    obtain ⟨hr₁, hnested⟩ | ⟨T, s₀, p₀, t₀, p₀', hcleanup, hs₀, hreach, hin, hnested⟩ := ih hr
    · have hcalls := hm.of_all (Plan.steady_ofTask t s)
      cases inside with
      | true =>
        have hnil : s₁.regions = [] := hcalls
        exact absurd (List.suffix_nil.mp (hnil ▸ hr₁)) (List.cons_ne_nil _ _)
      | false =>
        obtain ⟨-, -, hregions⟩ := hcalls
        have hstill : Reaches (Deeper rest.length) _ _ _ _ _ _ := .call hm ⟨rfl, hr₁.length_le⟩ hnested
        obtain hsuffix | ⟨caught', cleanup', ⟨body, handler, line, rfl⟩, rfl⟩ := hregions
        · exact .inl ⟨hr₁.trans hsuffix, hstill⟩
        · -- one region more: it is this one, or the statement is further in
          obtain heq | hsuffix := List.suffix_cons_iff.mp hr₁
          · obtain ⟨hprotection, rfl⟩ := List.cons.inj heq
            obtain ⟨rfl, rfl⟩ := Protection.mk.inj hprotection
            exact .inr ⟨⟨body, handler, cleanup, line⟩, s, p, t₁, p₁, rfl, rfl, .here, hm, hnested⟩
          · exact .inl ⟨hsuffix, hstill⟩
    · exact .inr ⟨T, s₀, p₀, t₀, p₀', hcleanup, hs₀, .call hm trivial hreach, hin, hnested⟩

end Task.Reaches

/-! ### Behind the region -/

namespace Plan

theorem still_guarded {A B : Plan} (hA : A.lowered.Still) (hB : B.lowered.Still) :
    (guarded (some A) B).lowered.Still := by
  have hjump : ∀ op l, (jump op l).Still := fun op l => .step rfl rfl
  have hplace : ∀ l, (place l).Still := fun l => .step rfl rfl
  exact .withLabel fun h => .append (.append (.append (hjump _ _) hB) (.step rfl rfl))
    (.withLabel fun done => .append (.append (.append (.append (hjump _ _) (hplace _))
      (.step rfl rfl)) hA) (hplace _))

/-- Behind its region, a cleanup finds the variables that live before it. -/
theorem Makes.active_of_cleaned {B : Plan} {t : Task} {s : Setting} {p q : Stage}
    (h : (cleaned (block (call t s)) B).Makes p false t s q) (hB : B.lowered.Still)
    (hnot : ∀ r, ¬ B.Makes r false t s q) :
    q.state.current.locals.active = p.state.current.locals.active := by
  obtain ⟨a, ha, h⟩ := h
  have hdrawn := Stage.Still.drawn_one ha
  obtain ((((h | ⟨m₁, hm₁, h⟩) | ⟨m₂, hm₂, h⟩) | ⟨m₃, hm₃, h⟩) | ⟨m₄, hm₄, h⟩) | ⟨m₅, hm₅, h⟩ := h
  · exact h.elim
  · exact absurd h (hnot m₁)
  · exact h.elim
  · exact h.elim
  · have hbefore : Stage.Still (p.drawn 1 a) m₄ :=
      (((Draft.Still.step rfl rfl).append hB).append (.step rfl rfl)).append (.step rfl rfl) _ _ hm₄
    obtain ⟨b, hb, -, -, -, rfl⟩ := h
    rw [Step.run_enterBlock_eq_ok hb]
    exact hbefore.active.trans hdrawn.active
  · exact h.elim

end Plan

namespace TryFinally

variable {T : TryFinally} {s s' : Setting} {start home away r : Stage}

/-- Behind its region, the cleanup is compiled among the variables that live at the statement. -/
theorem Ends.active (h : T.Ends s start home) :
    home.state.current.locals.active = start.state.current.locals.active := by
  obtain ⟨body, handler, cleanup, line⟩ := T
  have hprotect : (step .protect).Still := .step rfl rfl
  have hregion : ∀ caught, s.inRegion caught (some cleanup) ≠ s := by
    intro caught heq
    have hlength := congrArg (fun s : Setting => s.regions.length) heq
    exact absurd hlength (Nat.succ_ne_self _)
  have hstmts : ∀ t s', (block ((Plan.call t s').lowered)).Still :=
    fun t s' => .block (Task.keeps_lowered _ _)
  obtain _ | ⟨x, clause⟩ := handler
  · obtain h | ⟨m, hm, h⟩ := h
    · exact h.elim
    · refine (h.active_of_cleaned (hstmts _ _) fun r hr => ?_).trans (hprotect _ _ hm).active
      obtain ⟨a, -, -, -, hs, -⟩ := hr
      exact hregion _ hs.symm
  · obtain h | ⟨m, hm, h⟩ := h
    · exact h.elim
    · refine (h.active_of_cleaned (Plan.still_guarded (.block (.append keeps_declareAndStore
        (Task.keeps_lowered _ _))) (hstmts _ _)) fun r hr => ?_).trans (hprotect _ _ hm).active
      refine absurd rfl (hr.of_all (D := fun _ => True) (C := fun _ _ s' => s' ≠ s) ?_)
      simp [Plan.guarded, Plan.all_append, Plan.All, hregion]

/-- There is a copy of the cleanup behind its region. -/
theorem exists_ends (h : (T.task.lowered s).LeadsNarrow start r) : ∃ home, T.Ends s start home := by
  obtain ⟨body, handler, cleanup, line⟩ := T
  obtain _ | ⟨x, clause⟩ := handler <;>
  · obtain ⟨home, hhome, -⟩ := Task.exists_makes h (.inr fun _ => .inl (.inr ⟨rfl, rfl, rfl⟩))
    exact ⟨home, hhome⟩

end TryFinally

/-! ### The copies side by side -/

/-- Two copies of the same call are compiled. Away from home, there are the variables `passing` and the loops
`opened` in addition. Apart from these, both copies mean the same. -/
structure Task.Copied (t : Task) (s : Setting) (home : Stage) (s' : Setting) (away : Stage)
    (passing : List String) (opened : List Loop) : Prop where
  setting : s' = { s with loops := opened ++ s.loops }
  enclosing : away.state.enclosing = home.state.enclosing
  active : away.state.current.locals.active = home.state.current.locals.active ++ passing
  leads : ∃ q, (t.lowered s).Leads home q
  leads_away : ∃ q, (t.lowered s').Leads away q
  sideBySide : ∃ N, Gap.SideBySide
    { path := home.state.enclosing.map (·.children.size)
      around := home.state.current.locals.active, passing, outer := s.loops, opened }
    0 [] ((t.lowered s).steps home.supply) home.state ((t.lowered s').steps away.supply) away.state N

/-- Where the region is left, the cleanup is compiled as at the statement, but for more loops. -/
theorem TryFinally.exists_opened {T : TryFinally} {caught : Bool} {t : Task} {n : Nat} {s s₂ s' : Setting}
    {p₁ p₂ away : Stage}
    (hreach : Task.Reaches (Task.Deeper s.regions.length) t (s.inRegion caught (some T.cleanup)) p₁
      (.unwind (n + 1)) s₂ p₂)
    (hlast : s₂.regions.length = s.regions.length + 1)
    (hout : (Plan.ofTask (.unwind (n + 1)) s₂).Makes p₂ false (.stmts T.cleanup) s' away) :
    ∃ opened, s' = { s with loops := opened ++ s.loops } := by
  obtain ⟨hregions, hunit, ⟨opened, hopened⟩, -⟩ := hreach.nested (List.suffix_refl _)
  have hs₂ : ⟨caught, some T.cleanup⟩ :: s.regions = s₂.regions := hregions.eq_of_length hlast.symm
  have hcalls : (Plan.ofTask (.unwind (n + 1)) s₂).All (fun _ => True)
      fun _ _ s' => s' = { s₂ with regions := s.regions } := by
    simp only [Plan.ofTask, ← hs₂]
    simp [Plan.ofRegion, Plan.all_append, Plan.All]
  refine ⟨opened, ?_⟩
  rw [hout.of_all hcalls, hunit, ← hopened]
  rfl

/-- A copy where the region is left goes side by side with the copy behind the region. -/
theorem TryFinally.Leaves.exists_copied {T : TryFinally} {s s' : Setting} {start home away r : Stage}
    (h : T.Leaves s start s' away) (hhome : T.Ends s start home) (hstart : start.Numbered)
    (hr : (T.task.lowered s).LeadsNarrow start r) :
    ∃ passing opened, Task.Copied (.stmts T.cleanup) s home s' away passing opened := by
  obtain @⟨caught, t, n, s₂, p₁, p₂, hin, hreach, hlast, hout⟩ := h
  obtain ⟨opened, rfl⟩ := exists_opened hreach hlast hout
  obtain ⟨-, -, -, hexit⟩ := hreach.nested (List.suffix_refl _)
  have hgrows := ((hin.grows (Plan.steady_ofTask _ _)).trans hexit).trans
    (hout.grows (Plan.steady_ofTask _ _))
  have hhomeGrows := Plan.Makes.grows hhome (Plan.steady_ofTask _ _)
  obtain ⟨passing, hpassing⟩ := hgrows.initial
  have hactive : away.state.current.locals.active = home.state.current.locals.active ++ passing := by
    rw [hhome.active, hpassing]
  have henclosing : away.state.enclosing = home.state.enclosing := by
    rw [hgrows.enclosing, hhomeGrows.enclosing]
  -- both copies are part of the compilation
  rw [← Plan.lowered_ofTask] at hr
  obtain ⟨q, hq⟩ := Plan.Makes.leadsNarrow hhome hr
  obtain ⟨q₁, hq₁⟩ := hin.leadsNarrow hr
  obtain ⟨q₂, hq₂⟩ := hreach.leadsNarrow hq₁
  rw [← Plan.lowered_ofTask] at hq₂
  obtain ⟨q', hq'⟩ := hout.leadsNarrow hq₂
  have hbeside : Gap.Beside
      { path := home.state.enclosing.map (·.children.size)
        around := home.state.current.locals.active, passing, outer := s.loops, opened }
      0 home.state.scopes away.state.scopes := by
    rw [Assembler.scopes, Assembler.scopes, henclosing]
    refine .ground rfl (List.prefix_refl _) (hactive ▸ List.prefix_refl _) fun x _ hx => ?_
    rw [hactive, List.mem_append]
    exact (or_iff_left hx).symm
  obtain ⟨N, -, hside, -⟩ := (Gap.twins_lowered (M := []) (.same rfl) .around).run [] home away q q'
    (List.Subset.refl _) hq hq' (hhomeGrows.numbered hstart) (hgrows.numbered hstart) hbeside
  exact ⟨passing, opened, rfl, henclosing, hactive, ⟨q, hq.toLeads⟩, ⟨q', hq'.toLeads⟩, N, hside⟩

/-- In a compiled program, each copy of a cleanup where its region is left goes side by side with the copy
behind the region: a name means the same variable in both, unless it is a variable that was declared between
the statement and the exit, and a jump leads to the same loop, unless a loop was opened in between. Whatever
cleanup is compiled where a region is left is such a copy. -/
theorem cleanup_copies {config : Config} {program : List Stmt} {code : CodeObject}
    (hc : compile config program = .ok code) :
    (∀ (T : TryFinally) (s s' : Setting) (start home away : Stage),
        Program.Reaches config program T.task s start → T.Ends s start home →
        T.Leaves s start s' away →
        ∃ passing opened, Task.Copied (.stmts T.cleanup) s home s' away passing opened)
      ∧ ∀ (n : Nat) (s₂ s' : Setting) (p₂ away : Stage) (caught : Bool) (cleanup : List Stmt)
        (rest : List Protection), Program.Reaches config program (.unwind (n + 1)) s₂ p₂ →
        s₂.regions = ⟨caught, some cleanup⟩ :: rest →
        (Plan.ofTask (.unwind (n + 1)) s₂).Makes p₂ false (.stmts cleanup) s' away →
        ∃ (T : TryFinally) (s : Setting) (start home : Stage), T.cleanup = cleanup
          ∧ Program.Reaches config program T.task s start ∧ T.Ends s start home
          ∧ T.Leaves s start s' away := by
  constructor
  · intro T s s' start home away hreach hhome haway
    obtain ⟨r, hr⟩ := hreach.leadsNarrow hc
    exact haway.exists_copied hhome hreach.numbered hr
  · intro n s₂ s' p₂ away caught cleanup rest hreach hs₂ hout
    have hopen : ⟨caught, some cleanup⟩ :: rest <:+ s₂.regions := hs₂ ▸ List.suffix_refl _
    obtain ⟨hsuffix, -⟩ | ⟨T, s, start, t, p₁, rfl, rfl, hstart, hin, hnested⟩ :=
      Task.Reaches.opened hreach hopen
    · exact absurd (List.suffix_nil.mp hsuffix) (List.cons_ne_nil _ _)
    · obtain ⟨r, hr⟩ := Program.Reaches.leadsNarrow hstart hc
      obtain ⟨home, hhome⟩ := TryFinally.exists_ends hr
      exact ⟨T, s, start, home, rfl, hstart, hhome, .intro hin hnested (congrArg List.length hs₂) hout⟩

/-- A cleanup that reads a variable of the region when the region is left by the return, and a global
one otherwise:

      fn f() { try { var y = true; return; } finally { y; } } -/
def shadowedCleanup : List Stmt :=
  [onFirstLine (.function "f" (.mk [] false false [onFirstLine (.tryCatch
    [onFirstLine (.var "y" (some (.literal (.bool true)))), onFirstLine (.ret none)]
    none
    (some [onFirstLine (.expr (.name "y"))]))]))]

/-- The code of the function: the cleanup is at 5 and 6, and again at 9 and 10.

      0 TRY_FINALLY 9; 1 PUSH_TRUE; 2 STORE_LOCAL y; 3 PUSH_NIL; 4 END_TRY;
      5 LOAD_LOCAL y; 6 POP; 7 RETURN; 8 END_TRY;
      9 LOAD_GLOBAL y; 10 POP; 11 END_FINALLY; 12 PUSH_NIL; 13 RETURN -/
def shadowedCleanupCode : List Instruction :=
  [2107, 5, 10, 4, 61, 9, 2, 56, 61, 13, 2, 62, 4, 56].map (⟨·⟩)

theorem shadowedCleanup_copies :
    ∃ c u, compile .plain shadowedCleanup = .ok c ∧ c.Contains u ∧ u.code = shadowedCleanupCode
      ∧ u.code[5]? = some (.pack .loadLocal 0) ∧ u.code[9]? = some (.pack .loadGlobal 0) := by
  have hcode : ((compile .plain shadowedCleanup).toOption.bind fun c => c.children[0]?).map
      (·.code) = some shadowedCleanupCode := by
    decide +kernel
  obtain ⟨u, hu, hcode⟩ := Option.map_eq_some_iff.mp hcode
  obtain ⟨c, hc, hu⟩ := Option.bind_eq_some_iff.mp hu
  refine ⟨c, u, eq_ok_of_toOption hc, .child (List.mem_of_getElem? hu) (.self u), hcode, ?_, ?_⟩
  · rw [hcode]
    rfl
  · rw [hcode]
    rfl

theorem cleanup_copies_shadowedCleanup :
    ∃ (code : CodeObject) (T : TryFinally) (s s' : Setting) (start home away : Stage),
      compile .plain shadowedCleanup = .ok code
      ∧ Program.Reaches .plain shadowedCleanup T.task s start ∧ T.Ends s start home
      ∧ T.Leaves s start s' away
      ∧ ∃ passing opened, Task.Copied (.stmts T.cleanup) s home s' away passing opened := by
  have hok : (compile .plain shadowedCleanup).toOption.isSome = true := by decide +kernel
  obtain ⟨code, hcode⟩ := Option.isSome_iff_exists.mp hok
  have hc := eq_ok_of_toOption hcode
  obtain ⟨q₀, h₀⟩ := Program.exists_leadsNarrow hc
  let T : TryFinally :=
    { body := [onFirstLine (.var "y" (some (.literal (.bool true)))), onFirstLine (.ret none)]
      handler := none, cleanup := [onFirstLine (.expr (.name "y"))], line := 1 }
  -- from the program to the statement in the function
  obtain ⟨p₁, m₁, q₁, h₁⟩ := Task.exists_makes h₀ (.inl ⟨rfl, rfl, rfl⟩)
  obtain ⟨p₂, m₂, q₂, h₂⟩ := Task.exists_makes h₁ (.inr ⟨rfl, rfl, rfl⟩)
  obtain ⟨p₃, m₃, q₃, h₃⟩ := Task.exists_makes h₂ (.inl (.inr ⟨rfl, rfl, rfl⟩))
  obtain ⟨p₄, m₄, q₄, h₄⟩ := Task.exists_makes h₃ (.inr ⟨rfl, rfl, rfl⟩)
  obtain ⟨start, m₅, q₅, h₅⟩ := Task.exists_makes h₄ (.inl (.inr ⟨rfl, rfl, rfl⟩))
  have hreach : Program.Reaches .plain shadowedCleanup T.task _ start :=
    .call m₁ trivial (.call m₂ trivial (.call m₃ trivial (.call m₄ trivial (.call m₅ trivial .here))))
  obtain ⟨home, hhome⟩ := TryFinally.exists_ends (T := T) h₅
  -- from its region to the return
  obtain ⟨p₆, m₆, q₆, h₆⟩ :=
    Task.exists_makes h₅ (.inr fun _ => .inl (.inl (.inl (.inl (.inr ⟨rfl, rfl, rfl⟩)))))
  obtain ⟨p₇, m₇, q₇, h₇⟩ := Task.exists_makes h₆ (.inr ⟨rfl, rfl, rfl⟩)
  obtain ⟨p₈, m₈, q₈, h₈⟩ := Task.exists_makes h₇ (.inl ⟨rfl, rfl, rfl⟩)
  obtain ⟨p₉, m₉, q₉, h₉⟩ := Task.exists_makes h₈ (.inr ⟨rfl, rfl, rfl⟩)
  obtain ⟨p₁₀, m₁₀, q₁₀, h₁₀⟩ := Task.exists_makes h₉ (.inr (.inl ⟨rfl, rfl, rfl⟩))
  obtain ⟨away, hout, -⟩ := Task.exists_makes h₁₀ (.inl (.inr (.inr ⟨rfl, rfl, rfl⟩)))
  have hdeeper {s : Setting} {r : Protection} (hs : s.regions = [r]) : Task.Deeper 0 false s :=
    ⟨rfl, hs ▸ Nat.zero_lt_one⟩
  have haway : T.Leaves _ start _ away := .intro m₆ (.call m₇ (hdeeper rfl) (.call m₈ (hdeeper rfl)
    (.call m₉ (hdeeper rfl) (.call m₁₀ (hdeeper rfl) .here)))) rfl hout
  exact ⟨code, T, _, _, start, home, away, hc, hreach, hhome, haway,
    (cleanup_copies hc).1 T _ _ start home away hreach hhome haway⟩

end StackCode
