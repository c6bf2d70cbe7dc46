import StackCode.Proofs.HandlerBalance
import StackCode.Proofs.LoweredSelfCalls
import StackCode.Proofs.Meanings

/-!
# What tail calls call

A tail call stands in a function that is bound to a name, and the name is read for it inside the
function. On the other side there is the store that binds the closure, which is written in the unit
around. Both are settled by the variables of the units that are being written at these moments.

* `Step.TailCalls`, `Step.SelfCall`: a tail call, and the function that it stands in;
* `Targets`: when the variable that is read is the one that the closure is stored into;
* `Script.Faithful.tails`: every tail call of a script is one of a function to itself;
* `tailCalls_of_compile`: the tail calls of a compiled program.

A function of the program itself becomes a global variable, even where the program has a local
variable of the same name, which is what the function then finds.
-/

namespace StackCode

open Step (Performs)

/-! ### Tail calls and the functions they stand in -/

/-- Running a script performs steps that follow one another, in this unit or in one inside it, which
change one state of the assembly into another. -/
inductive Step.PerformsAll : Script → Assembler → Script → Assembler → Assembler → Prop where
  | here {ys xs : Script} {a b : Assembler} (h : Step.runAll ys a = .ok () b) :
      PerformsAll (ys ++ xs) a ys a b
  | later {x : Step} {ys xs : Script} {a b c d : Assembler} (h : Step.run x a = .ok () b)
      (hp : PerformsAll xs b ys c d) : PerformsAll (x :: xs) a ys c d
  | inside {op : Opcode} {kind : ScopeKind} {signature : Signature} {body ys xs : Script}
      {a b c d : Assembler} {s : Scope} {n : Nat}
      (he : Assembler.enterScope kind signature a = .ok n b)
      (hd : declareAll signature.params b.current = .ok () s)
      (hp : PerformsAll body { b with current := s } ys c d) :
      PerformsAll (.unit op kind signature body :: xs) a ys c d

/-- While the script of a unit is run from `start`, a tail call of `x` with `n` arguments is met in the
state `c`. In front of the arguments the variable `callee` is read for `x`. -/
inductive Step.TailCalls (body : Script) (start : Assembler) (x : String) (n : Nat)
    (callee : Variable) (c : Assembler) : Prop where
  | intro {front args after : Script} {m : Assembler}
      (hbody : body = front ++ .loadName x :: (args ++ .count .tailCall n :: after))
      (hread : Step.runAll (front ++ [.loadName x]) start = .ok () m)
      (hcallee : m.lastVariable? = some callee) (hargs : Script.Arguments n args)
      (hrun : Step.runAll args m = .ok () c) : TailCalls body start x n callee c

/-- While a script is run from `start`, a function is written whose closure is made in the unit that
is being written in the state `outside`. By the step `store` the closure is bound to `x`, that is, stored
into the variable `bound`. Inside the function a tail call of `x` with `n` arguments is met in the
state `c`, for which the variable `callee` is read. -/
inductive Step.SelfCall (script : Script) (start : Assembler) (x : String) (n : Nat)
    (outside : Assembler) (store : Step) (bound callee : Variable) (c : Assembler) : Prop where
  | intro {signature : Signature} {body between : Script} {b e : Assembler} {s : Scope} {k : Nat}
      (hp : Step.PerformsAll script start
        (.unit .makeClosure .function signature body :: (between ++ [store])) outside e)
      (hstore : Script.Stores x between store) (hbound : e.lastVariable? = some bound)
      (he : Assembler.enterScope .function signature outside = .ok k b)
      (hd : declareAll signature.params b.current = .ok () s)
      (hcall : Step.TailCalls body { b with current := s } x n callee c) :
      SelfCall script start x n outside store bound callee c

/-! ### Finding tail calls -/

/-- What a script performs is performed by its first part or by the rest of it. -/
theorem Step.Performs.of_append {xs ys : Script} {y : Step} {a b c d : Assembler}
    (hx : Step.runAll xs a = .ok () b) (h : Performs (xs ++ ys) a y c d) :
    Performs xs a y c d ∨ Performs ys b y c d := by
  induction xs generalizing a with
  | nil =>
    obtain ⟨-, rfl⟩ := Edit.pure_eq_ok.mp hx
    exact .inr h
  | cons x xs ih =>
    obtain ⟨e, hfirst, hx⟩ := Step.runAll_cons_eq_ok.mp hx
    cases h with
    | here hy => exact .inl (.here hy)
    | inside he hd hp => exact .inl (.inside he hd hp)
    | later hy hp =>
      injection hy.symm.trans hfirst with _ hb
      subst hb
      exact (ih hx hp).imp_left (.later hy)

/-- Ordinary steps perform no tail call. -/
theorem Step.Performs.opcode?_ne {xs : Script} {y : Step} {a c d : Assembler}
    (h : Performs xs a y c d) (hx : ∀ x ∈ xs, x.isOrdinary = true) :
    y.opcode? ≠ some .tailCall := by
  induction h with
  | here => exact Step.opcode?_of_isOrdinary (hx _ List.mem_cons_self)
  | later _ _ ih => exact ih (List.forall_mem_cons.mp hx).2
  | inside => cases hx _ List.mem_cons_self

namespace Step.PerformsAll

variable {xs ys zs : Script} {a b c d : Assembler}

theorem before (h : PerformsAll xs a zs c d) : PerformsAll (xs ++ ys) a zs c d := by
  induction h with
  | here h =>
    rw [List.append_assoc]
    exact .here h
  | later h _ ih => exact .later h ih
  | inside he hd hp => exact .inside he hd hp

theorem after (hx : Step.runAll xs a = .ok () b) (h : PerformsAll ys b zs c d) :
    PerformsAll (xs ++ ys) a zs c d := by
  induction xs generalizing a with
  | nil =>
    obtain ⟨-, rfl⟩ := Edit.pure_eq_ok.mp hx
    exact h
  | cons x xs ih =>
    obtain ⟨e, hfirst, hx⟩ := Step.runAll_cons_eq_ok.mp hx
    exact .later hfirst (ih hx)

end Step.PerformsAll

namespace Step.TailCalls

variable {xs ys : Script} {x : String} {n : Nat} {callee : Variable} {a b c : Assembler}

theorem before (h : TailCalls xs a x n callee c) : TailCalls (xs ++ ys) a x n callee c := by
  cases h with
  | @intro front args rest m hbody hread hcallee hargs hrun =>
    have hbody' : xs ++ ys
        = front ++ .loadName x :: (args ++ .count .tailCall n :: (rest ++ ys)) := by
      rw [hbody]
      simp
    exact .intro hbody' hread hcallee hargs hrun

theorem after (hx : Step.runAll xs a = .ok () b) (h : TailCalls ys b x n callee c) :
    TailCalls (xs ++ ys) a x n callee c := by
  cases h with
  | @intro front args rest m hbody hread hcallee hargs hrun =>
    have hbody' : xs ++ ys
        = xs ++ front ++ .loadName x :: (args ++ .count .tailCall n :: rest) := by
      rw [hbody, List.append_assoc]
    have hread' : Step.runAll (xs ++ front ++ [.loadName x]) a = .ok () m := by
      rw [List.append_assoc]
      exact Step.runAll_append_eq_ok.mpr ⟨b, hx, hread⟩
    exact .intro hbody' hread' hcallee hargs hrun

end Step.TailCalls

/-- The closure of a function, made in the state `outside`, is bound to `x` by the step `store`, which
stores it into the variable `bound`; in the state `c` inside the function the variable `callee` was
read for `x`. -/
structure Targets (x : String) (outside : Assembler) (store : Step) (bound callee : Variable)
    (c : Assembler) : Prop where
  /-- These are the same variable, unless the function becomes a global one although a unit around it
  has a variable of that name, or has such a variable itself. -/
  same_iff : callee = bound ↔
    ¬ (store = .named .storeGlobal x
        ∧ ∃ s ∈ outside.current :: outside.enclosing, (s.locals.lookup? x).isSome = true)
      ∧ ∀ n, callee ≠ .slot c.path n
  /-- The function itself can have no such variable but a hidden one. -/
  hidden : ∀ n, callee = .slot c.path n → IsHidden x

/-- A step is a tail call: of the name `self` in this script, or of its own name in a function inside.
-/
def Step.Tails (self : Option String) (xs : Script) (a : Assembler) (y : Step) (c : Assembler) :
    Prop :=
  ∃ x n, y = .count .tailCall n
    ∧ ((self = some x ∧ ∃ callee, Step.TailCalls xs a x n callee c)
      ∨ ∃ outside store bound callee, Step.SelfCall xs a x n outside store bound callee c
        ∧ Targets x outside store bound callee c)

namespace Step.SelfCall

variable {xs ys : Script} {x : String} {n : Nat} {store : Step} {bound callee : Variable}
  {a b c outside : Assembler}

theorem before (h : SelfCall xs a x n outside store bound callee c) :
    SelfCall (xs ++ ys) a x n outside store bound callee c := by
  cases h with
  | intro hp hstore hbound he hd hcall => exact .intro hp.before hstore hbound he hd hcall

theorem after (hx : Step.runAll xs a = .ok () b)
    (h : SelfCall ys b x n outside store bound callee c) :
    SelfCall (xs ++ ys) a x n outside store bound callee c := by
  cases h with
  | intro hp hstore hbound he hd hcall => exact .intro (hp.after hx) hstore hbound he hd hcall

theorem inside {op : Opcode} {kind : ScopeKind} {signature : Signature} {body : Script} {s : Scope}
    {k : Nat} (he : Assembler.enterScope kind signature a = .ok k b)
    (hd : declareAll signature.params b.current = .ok () s)
    (h : SelfCall body { b with current := s } x n outside store bound callee c) :
    SelfCall (.unit op kind signature body :: xs) a x n outside store bound callee c := by
  cases h with
  | intro hp hstore hbound he' hd' hcall =>
    exact .intro (.inside he hd hp) hstore hbound he' hd' hcall

end Step.SelfCall

namespace Step.Tails

variable {self : Option String} {xs ys : Script} {y : Step} {a b c : Assembler}

theorem before (h : Tails self xs a y c) : Tails self (xs ++ ys) a y c := by
  obtain ⟨x, n, rfl, ⟨hself, callee, h⟩ | ⟨outside, store, bound, callee, h, htargets⟩⟩ := h
  · exact ⟨x, n, rfl, .inl ⟨hself, callee, h.before⟩⟩
  · exact ⟨x, n, rfl, .inr ⟨outside, store, bound, callee, h.before, htargets⟩⟩

theorem after (hx : Step.runAll xs a = .ok () b) (h : Tails self ys b y c) :
    Tails self (xs ++ ys) a y c := by
  obtain ⟨x, n, rfl, ⟨hself, callee, h⟩ | ⟨outside, store, bound, callee, h, htargets⟩⟩ := h
  · exact ⟨x, n, rfl, .inl ⟨hself, callee, h.after hx⟩⟩
  · exact ⟨x, n, rfl, .inr ⟨outside, store, bound, callee, h.after hx, htargets⟩⟩

theorem cons {x : Step} (hx : Step.run x a = .ok () b) (h : Tails self ys b y c) :
    Tails self (x :: ys) a y c := by
  have hone : Step.runAll [x] a = .ok () b := Step.runAll_cons_eq_ok.mpr ⟨b, hx, rfl⟩
  exact h.after hone

end Step.Tails

/-- The name by which a function calls itself means in it what it means in the unit around, unless it
is that of a hidden variable. -/
theorem Step.TailCalls.callee_eq {signature : Signature} {body : Script} {x : String} {n : Nat}
    {callee : Variable} {a b c : Assembler} {s : Scope} {k : Nat}
    (h : Step.TailCalls body { b with current := s } x n callee c)
    (he : Assembler.enterScope .function signature a = .ok k b)
    (hd : declareAll signature.params b.current = .ok () s) (hparams : x ∉ signature.params)
    (hbody : Script.Faithful (some x) body) :
    c.enclosing = a.current :: a.enclosing
      ∧ (callee = .named x (a.current :: a.enclosing)
        ∨ IsHidden x ∧ ∃ m, callee = .slot c.path m) := by
  cases h with
  | @intro front args rest m hsplit hread hcallee hargs hrun =>
    obtain ⟨e, hfront, hlast⟩ := Step.runAll_append_eq_ok.mp hread
    obtain ⟨_, hload, hm⟩ := Step.runAll_cons_eq_ok.mp hlast
    obtain ⟨-, rfl⟩ := Edit.pure_eq_ok.mp hm
    obtain ⟨-, rfl⟩ := Assembler.enterScope_eq_ok.mp he
    have henc : e.enclosing = a.current :: a.enclosing := (Step.frame_of_runAll front hfront).1
    have hsame : c.enclosing = e.enclosing :=
      (Step.frame_of_runAll args hrun).1.trans (Step.frame_of_run _ hload).1
    refine ⟨hsame.trans henc, ?_⟩
    rw [Step.lastVariable?_of_loadName hload] at hcallee
    obtain rfl := Option.some.inj hcallee
    cases hown : e.current.locals.lookup? x with
    | none =>
      rw [Variable.named_of_none hown, henc]
      exact .inl rfl
    | some slot =>
      -- the unit begins without the name, so it was declared in front of the call
      refine .inr ⟨?_, slot, ?_⟩
      · by_contra hx
        have hfree : .declare x ∉ front := by
          intro hmem
          refine hx (hbody.isHidden_of_declare rfl ?_)
          rw [hsplit]
          exact List.mem_append_left _ hmem
        have hnone : e.current.locals.lookup? x = none :=
          Step.lookup?_of_runAll hfront hfree (Scope.lookup?_of_declareAll hd hparams rfl)
        rw [hnone] at hown
        cases hown
      · rw [Variable.named_of_some hown, Assembler.path, hsame]

/-- Whether the variable that is read is the one that the closure is stored into. -/
theorem Targets.of_meaning {x : String} {a c : Assembler} {store : Step} {bound callee : Variable}
    (henc : c.enclosing = a.current :: a.enclosing)
    (hcallee : callee = .named x (a.current :: a.enclosing)
      ∨ IsHidden x ∧ ∃ m, callee = .slot c.path m)
    (hbound : store = .named .storeGlobal x ∧ bound = .global x
      ∨ store ≠ .named .storeGlobal x ∧ bound = .named x (a.current :: a.enclosing)) :
    Targets x a store bound callee c := by
  have hlength : (a.current :: a.enclosing).length = c.path.length := by
    rw [Assembler.path, List.length_map, henc]
  have hown : ∀ n, Variable.named x (a.current :: a.enclosing) ≠ .slot c.path n :=
    fun n => Variable.named_ne_slot (Nat.le_of_eq hlength)
  obtain rfl | ⟨hhidden, m, rfl⟩ := hcallee
  · refine ⟨?_, fun n h => absurd h (hown n)⟩
    rw [and_iff_left hown]
    obtain ⟨rfl, rfl⟩ | ⟨hne, rfl⟩ := hbound
    · rw [Variable.named_eq_global_iff]
      simp [Option.isSome_iff_ne_none]
    · simp [hne]
  · refine ⟨?_, fun _ _ => hhidden⟩
    have hne : Variable.slot c.path m ≠ bound := by
      obtain ⟨-, rfl⟩ | ⟨-, rfl⟩ := hbound
      · exact Variable.noConfusion
      · exact (hown m).symm
    exact ⟨fun h => absurd h hne, fun h => absurd rfl (h.2 m)⟩

/-- The closure of a function that calls itself by `x` is bound to `x` by the step `store`. -/
theorem Step.SelfCall.of_bound {signature : Signature} {body between xs : Script} {x : String}
    {n : Nat} {store : Step} {callee : Variable} {a b c d e : Assembler} {s : Scope} {k : Nat}
    (hparams : x ∉ signature.params) (hbody : Script.Faithful (some x) body)
    (hstore : Script.Stores x between store)
    (hunit : Step.run (.unit .makeClosure .function signature body) a = .ok () d)
    (hrun : Step.runAll (between ++ [store]) d = .ok () e)
    (he : Assembler.enterScope .function signature a = .ok k b)
    (hd : declareAll signature.params b.current = .ok () s)
    (hcall : Step.TailCalls body { b with current := s } x n callee c) :
    ∃ bound, Step.SelfCall
      (.unit .makeClosure .function signature body :: (between ++ [store]) ++ xs) a x n a store bound
        callee c ∧ Targets x a store bound callee c := by
  have hall : Step.runAll (.unit .makeClosure .function signature body :: (between ++ [store])) a
      = .ok () e := Step.runAll_cons_eq_ok.mpr ⟨d, hunit, hrun⟩
  have hsame : Variable.named x (d.current :: d.enclosing)
      = .named x (a.current :: a.enclosing) := by
    rw [(Step.frame_of_run _ hunit).1, Variable.named_congr (Step.sameNames_of_unit hunit).locals]
  obtain ⟨henc, hcallee⟩ := hcall.callee_eq he hd hparams hbody
  obtain ⟨hglobal, hbound⟩ | ⟨hne, hbound⟩ := Step.lastVariable?_of_stores hstore hrun
  · exact ⟨.global x, .intro (.here hall) hstore hbound he hd hcall,
      .of_meaning henc hcallee (.inl ⟨hglobal, rfl⟩)⟩
  · rw [hsame] at hbound
    exact ⟨_, .intro (.here hall) hstore hbound he hd hcall,
      .of_meaning henc hcallee (.inr ⟨hne, rfl⟩)⟩

/-- The body of a unit that is written is run from the state in which it was entered. -/
theorem Step.runAll_of_unit {op : Opcode} {kind : ScopeKind} {signature : Signature} {body : Script}
    {a b d : Assembler} {s : Scope} {k : Nat}
    (h : Step.run (.unit op kind signature body) a = .ok () d)
    (he : Assembler.enterScope kind signature a = .ok k b)
    (hd : declareAll signature.params b.current = .ok () s) :
    ∃ c, Step.runAll body { b with current := s } = .ok () c := by
  obtain ⟨k', b', s', c, child, f, he', hd', hb, -, -⟩ := Step.run_unit_eq_ok.mp h
  injection he'.symm.trans he with _ hb'
  subst hb'
  injection hd'.symm.trans hd with _ hs'
  subst hs'
  exact ⟨c, hb⟩

/-- Every tail call of a script that keeps to its functions is one of a function to itself. -/
theorem Script.Faithful.tails {self : Option String} {xs : Script} {y : Step} {a b c d : Assembler}
    (h : Script.Faithful self xs) (hr : Step.runAll xs a = .ok () b) (hp : Performs xs a y c d)
    (hy : y.opcode? = some .tailCall) : Step.Tails self xs a y c := by
  induction h generalizing a b with
  | done => cases hp
  | @step self x xs hx _ _ ih =>
    obtain ⟨e, hfirst, hr⟩ := Step.runAll_cons_eq_ok.mp hr
    cases hp with
    | here => exact absurd hy (Step.opcode?_of_isOrdinary hx)
    | inside => cases hx
    | later hx' hp =>
      injection hx'.symm.trans hfirst with _ hb
      subst hb
      exact (ih hr hp).cons hfirst
  | @tail x n args xs hn hargs _ ihargs ih =>
    obtain ⟨m, hread, hr⟩ := Step.runAll_cons_eq_ok.mp hr
    obtain ⟨e, hrun, hr⟩ := Step.runAll_append_eq_ok.mp hr
    obtain ⟨f, hcall, hr⟩ := Step.runAll_cons_eq_ok.mp hr
    cases hp with
    | here => cases hy
    | later hread' hp =>
      injection hread'.symm.trans hread with _ hb
      subst hb
      obtain hp | hp := hp.of_append hrun
      · exact ((ihargs hrun hp).before).cons hread
      · cases hp with
        | here =>
          have hone : Step.runAll ([] ++ [.loadName x]) a = .ok () _ :=
            Step.runAll_cons_eq_ok.mpr ⟨_, hread, rfl⟩
          exact ⟨x, n, rfl, .inl ⟨rfl, _, .intro rfl hone (Step.lastVariable?_of_loadName hread) hn
            hrun⟩⟩
        | later hcall' hp =>
          injection hcall'.symm.trans hcall with _ hb
          subst hb
          exact (((ih hr hp).cons hcall).after hrun).cons hread
  | @unit self op kind signature body xs hop hbody _ ihbody ih =>
    obtain ⟨e, hunit, hr⟩ := Step.runAll_cons_eq_ok.mp hr
    cases hp with
    | here =>
      obtain rfl := Option.some.inj hy
      cases hop
    | inside he hd hp =>
      obtain ⟨f, hrun⟩ := Step.runAll_of_unit hunit he hd
      obtain ⟨x, n, rfl, ⟨hself, -⟩ | ⟨outside, store, bound, callee, h, htargets⟩⟩ := ihbody hrun hp
      · cases hself
      · exact ⟨x, n, rfl, .inr ⟨outside, store, bound, callee, h.inside he hd, htargets⟩⟩
    | later hunit' hp =>
      injection hunit'.symm.trans hunit with _ hb
      subst hb
      exact (ih hr hp).cons hunit
  | @bound self x signature body between xs store hx hbody hstore _ ihbody ih =>
    rw [List.append_cons] at hr hp ⊢
    obtain ⟨e, hunit, hr⟩ := Step.runAll_cons_eq_ok.mp hr
    obtain ⟨f, hstored, hrest⟩ := Step.runAll_append_eq_ok.mp hr
    cases hp with
    | here => cases hy
    | inside he hd hp =>
      obtain ⟨g, hrun⟩ := Step.runAll_of_unit hunit he hd
      obtain ⟨z, n, rfl, ⟨hself, callee, h⟩ | ⟨outside, store', bound, callee, h, htargets⟩⟩ :=
        ihbody hrun hp
      · obtain rfl := Option.some.inj hself
        obtain ⟨bound, hcall⟩ := Step.SelfCall.of_bound hx hbody hstore hunit hstored he hd h
        exact ⟨x, n, rfl, .inr ⟨a, store, bound, callee, hcall⟩⟩
      · exact ⟨z, n, rfl, .inr ⟨outside, store', bound, callee, h.inside he hd, htargets⟩⟩
    | later hunit' hp =>
      injection hunit'.symm.trans hunit with _ hb
      subst hb
      obtain hp | hp := hp.of_append hstored
      · exact absurd hy (hp.opcode?_ne hstore.isOrdinary)
      · exact ((ih hrest hp).after hstored).cons hunit

/-! ### Whole programs -/

/-- A step stands in a script or in the script of a unit inside. -/
inductive Step.Occurs (y : Step) : Script → Prop where
  | here {xs : Script} : Occurs y (y :: xs)
  | later {x : Step} {xs : Script} (h : Occurs y xs) : Occurs y (x :: xs)
  | inside {op : Opcode} {kind : ScopeKind} {signature : Signature} {body xs : Script}
      (h : Occurs y body) : Occurs y (.unit op kind signature body :: xs)

/-- A step that stands in a script is performed when the script is run. -/
theorem Step.Occurs.exists_performs {y : Step} {xs : Script} {a b : Assembler}
    (h : Step.Occurs y xs) (hr : Step.runAll xs a = .ok () b) : ∃ c d, Performs xs a y c d := by
  induction h generalizing a b with
  | here =>
    obtain ⟨d, hy, -⟩ := Step.runAll_cons_eq_ok.mp hr
    exact ⟨a, d, .here hy⟩
  | later _ ih =>
    obtain ⟨e, hx, hr⟩ := Step.runAll_cons_eq_ok.mp hr
    obtain ⟨c, d, hp⟩ := ih hr
    exact ⟨c, d, .later hx hp⟩
  | inside _ ih =>
    obtain ⟨e, hunit, -⟩ := Step.runAll_cons_eq_ok.mp hr
    obtain ⟨n, f, s, g, child, i, he, hd, hb, -, -⟩ := Step.run_unit_eq_ok.mp hunit
    obtain ⟨c, d, hp⟩ := ih hb
    exact ⟨c, d, .inside he hd hp⟩

/-- In a compiled program every tail call stands in a function that is bound to the name that is
called, and `Targets` tells whether the variable that is read for the call is the one that the closure
is stored into. -/
theorem tailCalls_of_compile {config : Config} {program : List Stmt} {code : CodeObject} {y : Step}
    {c d : Assembler} (hc : compile config program = .ok code)
    (hp : Performs (Program.script config program) (.start config) y c d)
    (hy : y.opcode? = some .tailCall) :
    ∃ x n outside store bound callee, y = .count .tailCall n
      ∧ Step.SelfCall (Program.script config program) (.start config) x n outside store bound callee c
      ∧ Targets x outside store bound callee c := by
  obtain ⟨final, ha⟩ := compile_eq_ok.mp hc
  obtain ⟨b, -, hr, -⟩ := assemble_eq_ok.mp ha
  obtain ⟨x, n, rfl, ⟨hself, -⟩ | ⟨outside, store, bound, callee, h⟩⟩ :=
    (Program.faithful hc).tails hr hp hy
  · cases hself
  · exact ⟨x, n, outside, store, bound, callee, rfl, h⟩

/-- The configuration without line markers. -/
def Config.unmarked : Config := { lineMarkers := false }

/-- A function inside another one calls itself in a branch of what it returns:

      fn g() { fn f(n) { return n ? f(n) : n; } } -/
def innerSelfCall : List Stmt :=
  [onFirstLine (.function "g" (.mk [] false false
    [onFirstLine (.function "f" (.mk [.mk "n" none] false false
      [onFirstLine (.ret (some (.conditional (.name "n")
        (.call 1 (.name "f") [.positional (.name "n")]) (.name "n"))))]))]))]

/-- A step that stands in the script of a compiled program is performed. -/
theorem Program.exists_performs {config : Config} {program : List Stmt} {code : CodeObject}
    {y : Step} (hc : compile config program = .ok code)
    (hy : Step.Occurs y (Program.script config program)) :
    ∃ c d, Performs (Program.script config program) (.start config) y c d := by
  obtain ⟨final, ha⟩ := compile_eq_ok.mp hc
  obtain ⟨b, -, hr, -⟩ := assemble_eq_ok.mp ha
  exact hy.exists_performs hr

theorem tailCalls_innerSelfCall :
    ∃ code c d, compile .unmarked innerSelfCall = .ok code
      ∧ Performs (Program.script .unmarked innerSelfCall) (.start .unmarked) (.count .tailCall 1) c d
      ∧ ∃ x n outside store bound callee, Step.count .tailCall 1 = .count .tailCall n
        ∧ Step.SelfCall (Program.script .unmarked innerSelfCall) (.start .unmarked) x n outside store
          bound callee c
        ∧ Targets x outside store bound callee c := by
  have hok : (compile .unmarked innerSelfCall).toOption.isSome = true := by decide +kernel
  obtain ⟨code, hcode⟩ := Option.isSome_iff_exists.mp hok
  have hc := eq_ok_of_toOption hcode
  have hy : Step.Occurs (.count .tailCall 1) (Program.script .unmarked innerSelfCall) :=
    .later (.inside (.later (.later (.inside (.later (.later (.later (.later (.later (.later (.later
      .here)))))))))))
  obtain ⟨c, d, hp⟩ := Program.exists_performs hc hy
  exact ⟨code, c, d, hc, hp, tailCalls_of_compile hc hp rfl⟩

/-- The state in which a script that can be run leaves the assembly. -/
def Step.stateAfter? (xs : Script) (a : Assembler) : Option Assembler :=
  match Step.runAll xs a with
  | .ok _ b => some b
  | .error _ _ => none

theorem Step.stateAfter?_of_runAll {xs : Script} {a b : Assembler}
    (h : Step.runAll xs a = .ok () b) : Step.stateAfter? xs a = some b := by
  rw [Step.stateAfter?, h]

/-- A function of the program has the name of a local variable of the program:

      var f = true; fn f() { return f(); } -/
def shadowedFunction : List Stmt :=
  [onFirstLine (.var "f" (some (.literal (.bool true)))),
    onFirstLine (.function "f" (.mk [] false false
      [onFirstLine (.ret (some (.call 1 (.name "f") [])))]))]

/-- The closure becomes the global variable `f`, and the tail call calls the local variable in slot
zero of the program. -/
theorem shadowedFunction_calls_variable :
    ∃ code outside c, compile .unmarked shadowedFunction = .ok code
      ∧ Step.SelfCall (Program.script .unmarked shadowedFunction) (.start .unmarked) "f" 0 outside
        (.named .storeGlobal "f") (.global "f") (.slot [] 0) c
      ∧ Variable.slot [] 0 ≠ .global "f" := by
  have hok : (compile .unmarked shadowedFunction).toOption.isSome = true := by decide +kernel
  obtain ⟨code, hcode⟩ := Option.isSome_iff_exists.mp hok
  have hc := eq_ok_of_toOption hcode
  obtain ⟨final, ha⟩ := compile_eq_ok.mp hc
  obtain ⟨b, -, hr, -⟩ := assemble_eq_ok.mp ha
  -- the steps up to the function, the function, the store behind it, and the rest
  have hscript : Program.script .unmarked shadowedFunction
      = [.markLine 1, .op .pushTrue, .declare "f", .slot .storeLocal "f", .markLine 1]
        ++ ([.unit .makeClosure .function {} [.markLine 1, .loadName "f", .count .tailCall 0],
            .named .storeGlobal "f"]
          ++ [.op .pushNil, .op .ret]) := rfl
  rw [hscript] at hr ⊢
  obtain ⟨a, hfront, hr⟩ := Step.runAll_append_eq_ok.mp hr
  obtain ⟨e, hbound, -⟩ := Step.runAll_append_eq_ok.mp hr
  obtain ⟨d, hunit, hstored⟩ := Step.runAll_cons_eq_ok.mp hbound
  obtain ⟨_, hstore, he⟩ := Step.runAll_cons_eq_ok.mp hstored
  obtain ⟨-, rfl⟩ := Edit.pure_eq_ok.mp he
  obtain ⟨k, u, s, g, child, v, henter, hd, hbody, -, -⟩ := Step.run_unit_eq_ok.mp hunit
  obtain ⟨e₁, hmark, hbody⟩ := Step.runAll_cons_eq_ok.mp hbody
  obtain ⟨m, hload, -⟩ := Step.runAll_cons_eq_ok.mp hbody
  have hread : Step.runAll ([.markLine 1] ++ [.loadName "f"]) { u with current := s } = .ok () m :=
    Step.runAll_cons_eq_ok.mpr ⟨e₁, hmark, Step.runAll_cons_eq_ok.mpr ⟨m, hload, rfl⟩⟩
  have hcallee : m.lastVariable? = some (.slot [] 0) := by
    obtain ⟨-, rfl⟩ := Assembler.enterScope_eq_ok.mp henter
    have hown : e₁.current.locals.lookup? "f" = none :=
      Step.lookup?_of_run hmark Step.noConfusion (Scope.lookup?_of_declareAll hd List.not_mem_nil rfl)
    have hslot : a.current.locals.lookup? "f" = some 0 := by
      have hrun : ((Step.stateAfter? [.markLine 1, .op .pushTrue, .declare "f",
          .slot .storeLocal "f", .markLine 1] (.start .unmarked)).bind
            fun a => a.current.locals.lookup? "f") = some 0 := by
        decide +kernel
      rw [Step.stateAfter?_of_runAll hfront] at hrun
      exact hrun
    rw [Step.lastVariable?_of_loadName hload, Variable.named_of_none hown,
      (Step.frame_of_run _ hmark).1, Variable.named_of_some hslot,
      (Step.frame_of_runAll _ hfront).1]
    rfl
  exact ⟨code, a, m, hc, .intro (.after hfront (.here hbound)) .global
    (Step.lastVariable?_of_storeGlobal hstore) henter hd
    (.intro rfl hread hcallee ⟨[], { config := .unmarked }, {}, rfl, rfl⟩ rfl), by decide⟩

end StackCode
