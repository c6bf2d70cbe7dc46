import StackCode.Proofs.Meanings
import StackCode.Proofs.SlotDiscipline
import StackCode.Proofs.Stages
import StackCode.Proofs.TreeWalk

/-!
# Two copies of a script side by side

The same statements are compiled twice in one unit, at home and away. Away there may be more variables and
more loops than at home. The two scripts then go side by side: labels that are drawn at once correspond,
and so do the variables that a name means in both copies, unless it means one that only lives away.

* `Gap`: what lies between the two places;
* `Referent`, `Gap.home`, `Gap.away`: what a variable is, as seen from either copy;
* `Gap.Exit`: where an exit leads that leaves both copies;
* `Gap.SideBySide`: two copies of a script are run;
* `Gap.Beside`: names mean the same in two states, as far as they can;
* `Gap.Beside.step`, `Gap.Beside.agrees`: one step on both sides.

Hidden variables are numbered throughout the program, so they have other names in the other copy.
-/

namespace StackCode

open Draft

/-! ### What lies between two places -/

/-- What a variable is to a piece of code. -/
inductive Referent where
  /-- A variable that lives around both copies. -/
  | outside (v : Variable)
  /-- A variable that lives around the copy away from home only. -/
  | passing
  /-- A variable of the code itself, in a unit so many levels further in. -/
  | own (inside : Nat)
  deriving DecidableEq, Repr

/-- The variable as seen from code in the unit at `path`, around which `around` variables live that are
common to both copies, and then `passing` ones. -/
def Variable.referent (path : List Nat) (around passing : Nat) : Variable → Referent
  | global x => .outside (.global x)
  | slot unit n =>
    if unit = path then
      if n < around then .outside (.slot unit n)
      else if n < around + passing then .passing
      else .own 0
    else if path.length < unit.length then .own (unit.length - path.length)
    else .outside (.slot unit n)

/-- What lies between two places in one unit, one of which comes later and further in. -/
structure Gap where
  /-- Where the unit is in the tree. -/
  path : List Nat
  /-- The variables that live at both places. -/
  around : List String
  /-- The variables that live at the second place only. -/
  passing : List String
  /-- The loops around both places. -/
  outer : List Loop
  /-- The loops around the second place only. -/
  opened : List Loop

/-- The labels that were drawn at once on both sides, the latest ones first. -/
abbrev LabelPairs := List (Label × Label)

/-- The variable that a step reads or writes by its name. -/
def Step.reference? : Step → Option String
  | loadName x | storeName x | slot .loadLocal x | slot .storeLocal x | named .storeGlobal x => some x
  | _ => none

theorem Step.slot_of_reference? {op : Opcode} {x name : String}
    (h : (Step.slot op x).reference? = some name) :
    (op = .loadLocal ∨ op = .storeLocal) ∧ x = name := by
  cases op with
  | loadLocal => exact ⟨.inl rfl, Option.some.inj h⟩
  | storeLocal => exact ⟨.inr rfl, Option.some.inj h⟩
  | _ => cases h

namespace Gap

variable (G : Gap)

/-- A variable as seen from the copy at home. -/
def home (v : Variable) : Referent := v.referent G.path G.around.length 0

/-- A variable as seen from the copy away from home. -/
def away (v : Variable) : Referent := v.referent G.path G.around.length G.passing.length

/-- Where a jump leads that leaves both copies: to the innermost loop around each. There is also how many
regions are around the loop. -/
inductive Exit : Label × Nat → Label × Nat → Prop where
  | breaks {k k' : Loop} (h : G.outer.head? = some k) (h' : (G.opened ++ G.outer).head? = some k') :
      Exit (k.breakTo, k.depth) (k'.breakTo, k'.depth)
  | continues {t t' : Label × Nat} (h : continuable? G.outer = some t)
      (h' : continuable? (G.opened ++ G.outer) = some t') : Exit t t'

/-- Two steps that do the same on both sides, `depth` units further in. -/
inductive Like (depth : Nat) (pairs : LabelPairs) : Step → Step → Prop where
  | same {x : Step} (hx : x.isFree = true) : Like depth pairs x x
  | jump {op : Opcode} {l l' : Label} (h : (l, l') ∈ pairs) :
      Like depth pairs (.jump op l) (.jump op l')
  | place {l l' : Label} (h : (l, l') ∈ pairs) : Like depth pairs (.place l) (.place l')
  | exit {l l' : Label} {n : Nat} (hd : depth = 0) (h : G.Exit (l, n) (l', n)) :
      Like depth pairs (.jump .jump l) (.jump .jump l')
  | declare {x x' : String} (hx : IsHidden x) (hx' : IsHidden x') :
      Like depth pairs (.declare x) (.declare x')
  | slot {op : Opcode} {x x' : String} (hx : IsHidden x) (hx' : IsHidden x') :
      Like depth pairs (.slot op x) (.slot op x')

/-- After a step was done on both sides, the same names are alive, and the step was about the same
variable, unless this one only lives away from home. -/
structure Agrees (depth : Nat) (x : Step) (b b' : Assembler) : Prop where
  alive : ∀ name, ¬ IsHidden name → (depth = 0 → name ∉ G.passing) →
    (name ∈ b.current.locals.active ↔ name ∈ b'.current.locals.active)
  meant : ∀ name, x.reference? = some name → ¬ IsHidden name → ∃ v v',
    b.lastVariable? = some v ∧ b'.lastVariable? = some v'
      ∧ (G.home v = G.away v' ↔ G.away v' ≠ .passing)

/-- Two copies of a script are run, from the states `a` and `a'`. The labels that were drawn at once are
the pairs at the beginning and at the end. -/
inductive SideBySide : (depth : Nat) → LabelPairs → Script → Assembler → Script → Assembler →
    LabelPairs → Prop where
  | done {depth : Nat} {M : LabelPairs} {a a' : Assembler} : SideBySide depth M [] a [] a' M
  | step {depth : Nat} {M N : LabelPairs} {x x' : Step} {xs xs' : Script} {a a' b b' : Assembler}
      (hx : G.Like depth M x x') (hr : x.run a = .ok () b) (hr' : x'.run a' = .ok () b')
      (hs : G.Agrees depth x b b') (h : SideBySide depth M xs b xs' b' N) :
      SideBySide depth M (x :: xs) a (x' :: xs') a' N
  | label {depth : Nat} {M N : LabelPairs} {l l' : Label} {xs xs' : Script} {a a' b b' : Assembler}
      (hl : Assembler.onCurrent Scope.newLabel a = .ok l b)
      (hl' : Assembler.onCurrent Scope.newLabel a' = .ok l' b')
      (h : SideBySide depth ((l, l') :: M) xs b xs' b' N) :
      SideBySide depth M (.newLabel :: xs) a (.newLabel :: xs') a' N
  /-- A unit of its own. -/
  | unit {depth : Nat} {M N K : LabelPairs} {op : Opcode} {kind : ScopeKind} {signature : Signature}
      {body body' xs xs' : Script} {a a' b b' c c' : Assembler} {s s' : Scope} {n n' : Nat}
      (he : Assembler.enterScope kind signature a = .ok n c)
      (he' : Assembler.enterScope kind signature a' = .ok n' c')
      (hd : declareAll signature.params c.current = .ok () s)
      (hd' : declareAll signature.params c'.current = .ok () s')
      (hb : SideBySide (depth + 1) [] body { c with current := s } body' { c' with current := s' } K)
      (hr : (Step.unit op kind signature body).run a = .ok () b)
      (hr' : (Step.unit op kind signature body').run a' = .ok () b')
      (h : SideBySide depth M xs b xs' b' N) :
      SideBySide depth M (.unit op kind signature body :: xs) a
        (.unit op kind signature body' :: xs') a' N
  /-- An exit that leaves both copies, but leads to another loop than at home. On the way there not as
  many regions are left. -/
  | stray {M N : LabelPairs} {l l' : Label} {n n' : Nat} {s : Setting} {loops : List Loop}
      {supply supply' : Supply} {zs zs' xs xs' : Script} {a a' b b' c c' : Assembler}
      (hl : G.Exit (l, n) (l', n')) (hn : n ≠ n')
      (hzs : zs = ((Task.unwind (s.regions.length - n)).lowered s).steps supply)
      (hzs' : zs' = ((Task.unwind (s.regions.length - n')).lowered { s with loops }).steps supply')
      (hz : Step.runAll zs a = .ok () b) (hz' : Step.runAll zs' a' = .ok () b')
      (hj : (Step.jump .jump l).run b = .ok () c) (hj' : (Step.jump .jump l').run b' = .ok () c')
      (h : SideBySide 0 M xs c xs' c' N) :
      SideBySide 0 M (zs ++ .jump .jump l :: xs) a (zs' ++ .jump .jump l' :: xs') a' N

end Gap

/-! ### Names in two states -/

namespace Variable

variable {path unit : List Nat} {around passing n : Nat}

theorem referent_around (h : n < around) :
    (slot path n).referent path around passing = .outside (slot path n) := by
  rw [referent, if_pos rfl, if_pos h]

theorem referent_passing (h : around ≤ n) (h' : n < around + passing) :
    (slot path n).referent path around passing = .passing := by
  rw [referent, if_pos rfl, if_neg (Nat.not_lt.mpr h), if_pos h']

theorem referent_own (h : around + passing ≤ n) :
    (slot path n).referent path around passing = .own 0 := by
  rw [referent, if_pos rfl, if_neg (by omega), if_neg (by omega)]

theorem referent_inside (h : path.length < unit.length) :
    (slot unit n).referent path around passing = .own (unit.length - path.length) := by
  have hne : unit ≠ path := by
    rintro rfl
    exact Nat.lt_irrefl _ h
  rw [referent, if_neg hne, if_pos h]

theorem referent_outer (h : unit.length < path.length) :
    (slot unit n).referent path around passing = .outside (slot unit n) := by
  have hne : unit ≠ path := by
    rintro rfl
    exact Nat.lt_irrefl _ h
  rw [referent, if_neg hne, if_neg (by omega)]

/-- A name means a variable of one of the units around. -/
theorem referent_named {name : String} {scopes : List Scope} (h : scopes.length = path.length) :
    (named name scopes).referent path around passing = .outside (named name scopes) := by
  cases hv : named name scopes with
  | global x => rfl
  | slot unit n =>
    refine referent_outer (Nat.lt_of_not_le fun hle => ?_)
    exact named_ne_slot (h ▸ hle) hv

/-- Nothing passes between a place and itself. -/
theorem referent_ne_passing (v : Variable) : v.referent path around 0 ≠ .passing := by
  cases v with
  | global x => exact nofun
  | slot unit n =>
    rw [referent]
    split
    · split
      · exact nofun
      · rw [if_neg (by omega)]
        exact nofun
    · split <;> exact nofun

end Variable

namespace Slots

variable {slots : Slots} {names : List String} {x : String} {n : Nat}

theorem mem_of_lookup? (h : slots.lookup? x = some n) : x ∈ slots.active :=
  List.mem_of_getElem? (getElem?_of_lookup? h)

theorem exists_lookup?_of_mem (h : x ∈ slots.active) : ∃ n, slots.lookup? x = some n :=
  Option.ne_none_iff_exists'.mp fun hnone => Scope.lookup?_eq_none_iff.mp hnone h

/-- A variable among the first ones has one of the first slots. -/
theorem lookup?_of_initial (hn : names <+: slots.active) (hx : x ∈ names) :
    slots.lookup? x = names.idxOf? x := by
  obtain ⟨rest, hrest⟩ := hn
  rw [lookup?, ← hrest]
  unfold List.idxOf?
  rw [List.findIdx?_append]
  cases hi : names.findIdx? (· == x) with
  | some n => rfl
  | none => exact absurd hx (List.idxOf?_eq_none_iff.mp hi)

theorem lt_length_of_lookup? (hn : names <+: slots.active) (hx : x ∈ names)
    (h : slots.lookup? x = some n) : n < names.length := by
  rw [lookup?_of_initial hn hx] at h
  exact (List.findIdx?_eq_some_iff_getElem.mp h).1

/-- Any other variable has a slot behind theirs. -/
theorem length_le_of_lookup? (hn : names <+: slots.active) (hx : x ∉ names)
    (h : slots.lookup? x = some n) : names.length ≤ n := by
  refine Nat.le_of_not_lt fun hlt => hx ?_
  obtain ⟨rest, hrest⟩ := hn
  have hget := getElem?_of_lookup? h
  rw [← hrest, List.getElem?_append_left hlt] at hget
  exact List.mem_of_getElem? hget

end Slots

/-- The scope that is being written and those around it, innermost first. -/
def Assembler.scopes (a : Assembler) : List Scope := a.current :: a.enclosing

namespace Gap

/-- In units nested in one another, the names of both sides mean the same, except for the variables that
only live away from home; the two places are in the same unit, `depth` units further out. -/
inductive Beside (G : Gap) : (depth : Nat) → List Scope → List Scope → Prop where
  | ground {s s' : Scope} {rest : List Scope} (hpath : rest.map (fun t => t.children.size) = G.path)
      (haround : G.around <+: s.locals.active)
      (hpassing : G.around ++ G.passing <+: s'.locals.active)
      (hmem : ∀ x, ¬ IsHidden x → x ∉ G.passing → (x ∈ s.locals.active ↔ x ∈ s'.locals.active)) :
      Beside G 0 (s :: rest) (s' :: rest)
  | inner {depth : Nat} {s s' : Scope} {scopes scopes' : List Scope}
      (hmem : ∀ x, ¬ IsHidden x → (x ∈ s.locals.active ↔ x ∈ s'.locals.active))
      (h : Beside G depth scopes scopes') : Beside G (depth + 1) (s :: scopes) (s' :: scopes')

namespace Beside

variable {G : Gap} {depth : Nat} {x : String} {s s' t t' : Scope} {rest rest' scopes scopes' : List Scope}

theorem length_eq (h : G.Beside depth scopes scopes') :
    scopes.length = G.path.length + depth + 1 ∧ scopes'.length = G.path.length + depth + 1 := by
  induction h with
  | ground hpath => rw [← hpath]; simp
  | inner _ _ ih => exact ⟨congrArg (· + 1) ih.1, congrArg (· + 1) ih.2⟩

/-- What a name means is the same on both sides, unless it is a variable that only lives away. -/
theorem home_named_eq_away_iff (h : G.Beside depth scopes scopes') (hx : ¬ IsHidden x) :
    G.home (.named x scopes) = G.away (.named x scopes')
      ↔ G.away (.named x scopes') ≠ .passing := by
  induction h with
  | @ground s s' rest hpath haround hpassing hmem =>
    have haround' := (List.prefix_append _ _).trans hpassing
    have houter : ∀ k, (Variable.named x rest).referent G.path G.around.length k
        = .outside (.named x rest) :=
      fun k => Variable.referent_named (by rw [← hpath, List.length_map])
    cases hi : s'.locals.lookup? x with
    | none =>
      have hnot : x ∉ s'.locals.active := Scope.lookup?_eq_none_iff.mp hi
      have hpass : x ∉ G.passing := fun hp => hnot (hpassing.subset (List.mem_append_right _ hp))
      have hi₀ : s.locals.lookup? x = none :=
        Scope.lookup?_eq_none_iff.mpr fun hs => hnot ((hmem x hx hpass).mp hs)
      rw [Variable.named_of_none hi, Variable.named_of_none hi₀, home, away, houter, houter]
      simp
    | some n' =>
      rw [Variable.named_of_some hi, hpath]
      by_cases hin : x ∈ G.around
      · -- a variable that lives around both
        have hi₀ : s.locals.lookup? x = some n' := by
          rw [Slots.lookup?_of_initial haround hin, ← Slots.lookup?_of_initial haround' hin, hi]
        have hn : n' < G.around.length := Slots.lt_length_of_lookup? haround hin hi₀
        rw [Variable.named_of_some hi₀, hpath, home, away, Variable.referent_around hn,
          Variable.referent_around hn]
        simp
      · by_cases hpass : x ∈ G.passing
        · have hle := Slots.length_le_of_lookup? haround' hin hi
          have hlt := Slots.lt_length_of_lookup? hpassing (List.mem_append_right _ hpass) hi
          rw [List.length_append] at hlt
          rw [away, Variable.referent_passing hle hlt]
          simp [home, Variable.referent_ne_passing]
        · have hmem' : x ∈ s.locals.active :=
            (hmem x hx hpass).mpr (Slots.mem_of_lookup? hi)
          obtain ⟨n, hi₀⟩ := Slots.exists_lookup?_of_mem hmem'
          have hle := Slots.length_le_of_lookup? haround hin hi₀
          have hle' := Slots.length_le_of_lookup? hpassing (by simp [hin, hpass]) hi
          rw [List.length_append] at hle'
          have hle₀ : G.around.length + 0 ≤ n := hle
          rw [Variable.named_of_some hi₀, hpath, home, away, Variable.referent_own hle',
            Variable.referent_own hle₀]
          simp
  | @inner depth s s' scopes scopes' hmem h ih =>
    obtain ⟨hlength, hlength'⟩ := h.length_eq
    cases hi : s.locals.lookup? x with
    | none =>
      have hi' : s'.locals.lookup? x = none :=
        Scope.lookup?_eq_none_iff.mpr fun hs =>
          Scope.lookup?_eq_none_iff.mp hi ((hmem x hx).mpr hs)
      rw [Variable.named_of_none hi, Variable.named_of_none hi']
      exact ih
    | some n =>
      obtain ⟨n', hi'⟩ := Slots.exists_lookup?_of_mem ((hmem x hx).mp (Slots.mem_of_lookup? hi))
      rw [Variable.named_of_some hi, Variable.named_of_some hi', home, away,
        Variable.referent_inside (by rw [List.length_map]; omega),
        Variable.referent_inside (by rw [List.length_map]; omega), List.length_map, List.length_map,
        hlength, hlength']
      simp

/-- The same names are alive. -/
theorem alive (h : G.Beside depth (s :: rest) (s' :: rest')) (hx : ¬ IsHidden x)
    (hp : depth = 0 → x ∉ G.passing) : x ∈ s.locals.active ↔ x ∈ s'.locals.active := by
  cases h with
  | ground _ _ _ hmem => exact hmem x hx (hp rfl)
  | inner hmem _ => exact hmem x hx

/-- The variables are the same as before on both sides. -/
theorem congr (h : G.Beside depth (s :: rest) (s' :: rest'))
    (hs : t.locals.active = s.locals.active) (hs' : t'.locals.active = s'.locals.active) :
    G.Beside depth (t :: rest) (t' :: rest') := by
  cases h with
  | ground hpath haround hpassing hmem =>
    exact .ground hpath (hs ▸ haround) (hs' ▸ hpassing) (hs ▸ hs' ▸ hmem)
  | inner hmem h => exact .inner (hs ▸ hs' ▸ hmem) h

theorem still {p p' q q' : Stage} (h : G.Beside depth p.state.scopes p'.state.scopes)
    (hq : p.Still q) (hq' : p'.Still q') : G.Beside depth q.state.scopes q'.state.scopes := by
  rw [Assembler.scopes, Assembler.scopes, hq.enclosing, hq'.enclosing]
  exact h.congr hq.active hq'.active

/-- A variable is declared on both sides. -/
theorem declare {x' : String} {slot slot' : Nat} {fresh fresh' : Bool}
    (h : G.Beside depth (s :: rest) (s' :: rest')) (hx : x = x' ∨ IsHidden x ∧ IsHidden x')
    (hd : s.locals.declare x = .ok ((slot, fresh), t.locals))
    (hd' : s'.locals.declare x' = .ok ((slot', fresh'), t'.locals)) :
    G.Beside depth (t :: rest) (t' :: rest') := by
  have hmem : ∀ y, ¬ IsHidden y → (y ∈ s.locals.active ↔ y ∈ s'.locals.active) →
      (y ∈ t.locals.active ↔ y ∈ t'.locals.active) := by
    intro y hy hiff
    rw [Slots.mem_of_declare hd, Slots.mem_of_declare hd', hiff]
    obtain rfl | ⟨hhidden, hhidden'⟩ := hx
    · exact Iff.rfl
    · have hne : y ≠ x := fun he => hy (he ▸ hhidden)
      have hne' : y ≠ x' := fun he => hy (he ▸ hhidden')
      simp [hne, hne']
  cases h with
  | ground hpath haround hpassing hbefore =>
    exact .ground hpath (haround.trans (Slots.initial_of_declare hd))
      (hpassing.trans (Slots.initial_of_declare hd')) fun y hy hp => hmem y hy (hbefore y hy hp)
  | inner hbefore h => exact .inner (fun y hy => hmem y hy (hbefore y hy)) h

end Beside

/-! ### One step on both sides -/

variable {G : Gap} {depth : Nat} {M N : LabelPairs} {x x' : Step} {a a' b b' : Assembler}

theorem Like.mono (h : G.Like depth M x x') (hM : M ⊆ N) : G.Like depth N x x' := by
  cases h with
  | same hx => exact .same hx
  | jump h => exact .jump (hM h)
  | place h => exact .place (hM h)
  | exit hd h => exact .exit hd h
  | declare hx hx' => exact .declare hx hx'
  | slot hx hx' => exact .slot hx hx'

/-- Like steps keep two states beside one another. -/
theorem Beside.step (h : G.Beside depth a.scopes a'.scopes) (hx : G.Like depth M x x')
    (hlevel : x.isLevel = true) (hr : x.run a = .ok () b) (hr' : x'.run a' = .ok () b') :
    G.Beside depth b.scopes b'.scopes := by
  have hkept : x.keepsNames = true → x'.keepsNames = true → G.Beside depth b.scopes b'.scopes := by
    intro hkeep hkeep'
    rw [Assembler.scopes, Assembler.scopes, (Step.frame_of_run x hr).1, (Step.frame_of_run x' hr').1]
    exact h.congr (congrArg _ (Step.sameNames hkeep hr).locals)
      (congrArg _ (Step.sameNames hkeep' hr').locals)
  have hdeclared : ∀ name name', x = .declare name → x' = .declare name' →
      (name = name' ∨ IsHidden name ∧ IsHidden name') → G.Beside depth b.scopes b'.scopes := by
    rintro name name' rfl rfl hname
    obtain ⟨slot, fresh, hl, he, -⟩ := Step.run_declare_eq_ok hr
    obtain ⟨slot', fresh', hl', he', -⟩ := Step.run_declare_eq_ok hr'
    rw [Assembler.scopes, Assembler.scopes, he, he']
    exact h.declare hname hl hl'
  cases hx with
  | jump _ | place _ | exit _ _ | slot _ _ => exact hkept rfl rfl
  | declare hx hx' => exact hdeclared _ _ rfl rfl (.inr ⟨hx, hx'⟩)
  | same hx =>
    cases hkeep : x.keepsNames with
    | true => exact hkept hkeep hkeep
    | false =>
      cases x with
      | declare name => exact hdeclared name name rfl rfl (.inl rfl)
      | enterBlock | leaveBlock => cases hlevel
      | _ => cases hkeep

/-- When a block is entered, the variables stay. -/
theorem Beside.enterBlock (h : G.Beside depth a.scopes a'.scopes)
    (hr : Step.run .enterBlock a = .ok () b) (hr' : Step.run .enterBlock a' = .ok () b') :
    G.Beside depth b.scopes b'.scopes := by
  rw [Step.run_enterBlock_eq_ok hr, Step.run_enterBlock_eq_ok hr']
  exact h.congr rfl rfl

/-- Like steps are about the same variable, as far as they can. -/
theorem Beside.agrees (h : G.Beside depth a.scopes a'.scopes) (hx : G.Like depth M x x')
    (hr : x.run a = .ok () b) (hr' : x'.run a' = .ok () b') (hb : G.Beside depth b.scopes b'.scopes) :
    G.Agrees depth x b b' := by
  refine ⟨fun name hname hp => hb.alive hname hp, fun name hvar hname => ?_⟩
  have hnamed := h.home_named_eq_away_iff hname
  have hglobal : G.home (.global name) = G.away (.global name)
      ↔ G.away (.global name) ≠ .passing := ⟨fun _ => nofun, fun _ => rfl⟩
  cases hx with
  | jump _ | place _ | exit _ _ | declare _ _ => cases hvar
  | slot hhidden _ =>
    obtain ⟨-, rfl⟩ := Step.slot_of_reference? hvar
    exact absurd hhidden hname
  | same hx =>
    cases x with
    | loadName y =>
      obtain rfl := Option.some.inj hvar
      exact ⟨_, _, Step.lastVariable?_of_loadName hr, Step.lastVariable?_of_loadName hr', hnamed⟩
    | storeName y =>
      obtain rfl := Option.some.inj hvar
      exact ⟨_, _, Step.lastVariable?_of_storeName hr, Step.lastVariable?_of_storeName hr', hnamed⟩
    | slot op y =>
      obtain ⟨hop, rfl⟩ := Step.slot_of_reference? hvar
      exact ⟨_, _, Step.lastVariable?_of_slot hop hr, Step.lastVariable?_of_slot hop hr', hnamed⟩
    | named op y =>
      cases op with
      | storeGlobal =>
        obtain rfl := Option.some.inj hvar
        exact ⟨_, _, Step.lastVariable?_of_storeGlobal hr, Step.lastVariable?_of_storeGlobal hr',
          hglobal⟩
      | _ => cases hvar
    | _ => cases hvar

/-! ### Scripts one after the other -/

theorem SideBySide.append {K : LabelPairs} {xs xs' ys ys' : Script}
    (h : G.SideBySide depth M xs a xs' a' N) (hr : Step.runAll xs a = .ok () b)
    (hr' : Step.runAll xs' a' = .ok () b') (hy : G.SideBySide depth N ys b ys' b' K) :
    G.SideBySide depth M (xs ++ ys) a (xs' ++ ys') a' K := by
  induction h with
  | done =>
    obtain ⟨-, rfl⟩ := Edit.pure_eq_ok.mp hr
    obtain ⟨-, rfl⟩ := Edit.pure_eq_ok.mp hr'
    exact hy
  | step hx hs hs' hagrees _ ih =>
    exact .step hx hs hs' hagrees (ih (Step.runAll_of_cons hr hs) (Step.runAll_of_cons hr' hs') hy)
  | label hl hl' _ ih =>
    have hs := Step.run_newLabel hl
    have hs' := Step.run_newLabel hl'
    exact .label hl hl' (ih (Step.runAll_of_cons hr hs) (Step.runAll_of_cons hr' hs') hy)
  | unit he he' hd hd' hb hs hs' _ _ ih =>
    exact .unit he he' hd hd' hb hs hs'
      (ih (Step.runAll_of_cons hr hs) (Step.runAll_of_cons hr' hs') hy)
  | stray hl hn hzs hzs' hz hz' hj hj' _ ih =>
    rw [List.append_assoc, List.append_assoc, List.cons_append, List.cons_append]
    refine .stray hl hn hzs hzs' hz hz' hj hj' (ih ?_ ?_ hy)
    · exact Step.runAll_of_cons (Step.runAll_of_append hr hz) hj
    · exact Step.runAll_of_cons (Step.runAll_of_append hr' hz') hj'

end Gap

end StackCode
