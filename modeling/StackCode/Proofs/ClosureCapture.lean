import StackCode.Proofs.HandlerBalance
import StackCode.Proofs.Wiring

/-!
# Captures lead to the variables that were meant

A name that belongs to a unit further out is resolved when it is met, while the units around it are
still being written; the captures that fill it are written later, one level after the other. In the
tree of a compiled program they lead to the variable that was found, through any number of levels.

* `Assembler.resolve_of_findsOutside`: such a name becomes an outer variable;
* `Mentions.leads_of_traversal`: what is known of a mention when the script has been run;
* `capturesTraced_of_compile`: all mentions in a compiled program are traced.
-/

namespace StackCode

open Step (Performs)

/-! ### Mentions -/

variable {name : String} {o : Outer} {a b : Assembler}

/-- A name that belongs to a unit further out becomes an outer variable. -/
theorem Assembler.resolve_of_findsOutside {place : Place} (hr : resolve name a = .ok place b)
    (ho : a.FindsOutside name o) :
    ∃ i outers, place = .outer i ∧ outers.descriptors[i]? = some o
      ∧ b = { a with current := { a.current with outers } } := by
  obtain ⟨hnone, nearer, s, farther, hin, hnear, hs, hup⟩ := ho
  obtain ⟨slot, hl, -, -⟩ | ⟨-, x, i, outers, hf, hadd, rfl, rfl⟩ | ⟨-, hf, -⟩ :=
    resolve_eq_ok.mp hr
  · rw [hnone] at hl
    cases hl
  · rw [hin] at hf
    have hx := Option.some.inj (findOuter_eq hnear hs hf)
    obtain rfl : x = o := by
      rw [hx, Nat.add_comm, ← hup]
    exact ⟨i, outers, rfl, Outers.getElem?_of_add hadd, rfl⟩
  · rw [hin] at hf
    cases findOuter_eq hnear hs hf

/-- The instruction for such a name refers to the outer variable. -/
theorem Step.run_of_findsOutside {x : Step} {op : Opcode} (hx : x.Accesses name op)
    (h : Step.run x a = .ok () b) (ho : a.FindsOutside name o) :
    b.enclosing = a.enclosing ∧ ∃ i, i ≤ Instruction.maxUnsigned
      ∧ b.current.code = a.current.code.push (.pack op i)
      ∧ b.current.outers.descriptors[i]? = some o := by
  cases hx with
  | load =>
    obtain ⟨place, b', hr, hn, -, rfl⟩ := Assembler.loadName_eq_ok.mp h
    obtain ⟨i, outers, rfl, hi, rfl⟩ := Assembler.resolve_of_findsOutside hr ho
    exact ⟨rfl, i, hn, rfl, hi⟩
  | store =>
    obtain ⟨place, b', hr, hn, -, rfl⟩ := Assembler.storeName_eq_ok.mp h
    obtain ⟨i, outers, rfl, hi, rfl⟩ := Assembler.resolve_of_findsOutside hr ho
    exact ⟨rfl, i, hn, rfl, hi⟩

theorem Step.Accesses.isOuterAccess {x : Step} {op : Opcode} (h : x.Accesses name op) :
    op.isOuterAccess = true := by
  cases h <;> rfl

/-- What a mention refers to is found when the script has been run. -/
theorem Mentions.leads_of_traversal {script : Script} {start final : Assembler} {path : List Nat}
    {op : Opcode} {w : Instruction} (h : Mentions script start path o op w)
    {t : Scope} (hstart : start.enclosing = []) (hrun : Traversal script start final)
    (ht : final.current.Grows t) :
    w.opcode? = some op ∧ Leads t.toCodeObject t.outers.descriptors path w.unsigned o
      ∧ ∃ u, t.toCodeObject.unitAt? path = some u ∧ w ∈ u.code := by
  cases h with
  | @intro x name op o w a b hx hp ho hw =>
    obtain ⟨he, i, hn, hcode, hi⟩ := Step.run_of_findsOutside hx hp.run ho
    obtain rfl : w = .pack op i := (Array.push_eq_push.mp (hw.symm.trans hcode)).1
    have hop : (Instruction.pack op i).opcode? = some op :=
      Instruction.opcode?_pack (Nat.lt_succ_of_le hn)
    obtain ⟨path, hpath, hlives⟩ := hrun.lives x a b hp
    have hlives := hlives.grows ht
    obtain rfl : path = a.path := by
      rw [Assembler.path, Assembler.path, hstart, List.map_nil, List.append_nil, he] at hpath
      exact hpath.symm
    refine ⟨hop, ?_, ?_⟩
    · rw [Instruction.unsigned_pack (Nat.lt_succ_of_le hn)]
      exact hlives.leads i o hi
    · refine hlives.access _ op ?_ hop hx.isOuterAccess
      rw [hcode]
      exact Array.mem_push_self

/-! ### Whole programs -/

/-- The frames of a script need not meet for its captures to be traced. -/
theorem lawful_any : Lawful (fun _ _ => True) fun _ => True :=
  ⟨fun _ => trivial, fun _ _ => trivial⟩

/-- In a compiled program every name that belongs to a unit further out is traced to the variable
that was found for it. -/
theorem capturesTraced_of_compile {config : Config} {program : List Stmt} {c : CodeObject}
    (hc : compile config program = .ok c) :
    ∃ final, assemble (Program.script config program) (Assembler.start config) = .ok c final
      ∧ CapturesTraced (Program.script config program) (Assembler.start config) c final := by
  obtain ⟨final, ha⟩ := compile_eq_ok.mp hc
  refine ⟨final, ha, ?_⟩
  obtain ⟨b, s, hb, -, hrec, hnone, rfl, rfl⟩ := assemble_eq_ok.mp ha
  obtain ⟨out, hflow⟩ :=
    Program.flows_of_compile lawful_any hc fun x (_ : x ∈ Program.exits program) => trivial
  have hrun := hflow.traverse hb Scope.sound_new fun l hl => absurd hl List.not_mem_nil
  obtain ⟨trail, htraced⟩ := (hflow.run hb followed_new).2.traced
  have hend : b.current.Evolves s := .reconcile htraced hrec
  have hsound := hend.sound hrun.sound
  have hleads : ∀ {path o op w},
      Mentions (Program.script config program) (.start config) path o op w →
      w.opcode? = some op ∧ Leads s.toCodeObject [] path w.unsigned o
        ∧ ∃ u, s.toCodeObject.unitAt? path = some u ∧ w ∈ u.code := by
    intro path o op w hm
    have h := hm.leads_of_traversal rfl hrun hend.grows
    rwa [hnone] at h
  refine ⟨?_, ?_, ?_, ?_, ?_, ?_⟩
  · intro x name op o a b' hx hp ho
    obtain ⟨-, i, -, hcode, -⟩ := Step.run_of_findsOutside hx hp.run ho
    exact ⟨_, hcode⟩
  · intro path o op w hm
    obtain ⟨hop, hl, hu⟩ := hleads hm
    exact ⟨hop, hl.origin?_eq, hu⟩
  · intro path o o' op op' w w' hm hm'
    obtain ⟨-, hl, -⟩ := hleads hm
    obtain ⟨-, hl', -⟩ := hleads hm'
    constructor
    · intro hw
      have horigin := hl.origin?_eq
      rw [hw, hl'.origin?_eq] at horigin
      exact (Option.some.inj horigin).symm
    · rintro rfl
      exact hl.injective hl' hsound.linked List.nodup_nil fun x hx => absurd hx List.not_mem_nil
  · intro u hu k hk
    obtain ⟨captures, hlinks, -⟩ := (hsound.linked u hu).links k hk
    obtain ⟨p, hp, -⟩ := hlinks.place
    exact ⟨p, hp⟩
  · intro t ht
    obtain rfl | ht := List.mem_cons.mp ht
    · refine ⟨rfl, fun x hx => ?_⟩
      replace hx : x ∈ s.outers.descriptors := hx
      rw [hnone] at hx
      cases hx
    · obtain ⟨l, hl, rfl⟩ := List.mem_map.mp ht
      exact hrun.settled l hl
  · show s.outers.descriptors.length = 0
    rw [hnone]
    rfl

/-- A variable that is used two units further in, so that the unit between relays it:

      fn f() { var x = true; fn g() { fn h() { return x; } } } -/
def relayedVariable : List Stmt :=
  [onFirstLine (.function "f" (.mk [] false false
    [onFirstLine (.var "x" (some (.literal (.bool true)))),
      onFirstLine (.function "g" (.mk [] false false
        [onFirstLine (.function "h" (.mk [] false false
          [onFirstLine (.ret (some (.name "x")))]))]))]))]

theorem capturesTraced_relayedVariable :
    ∃ c, compile .plain relayedVariable = .ok c ∧ c.origin? [0, 0, 0] 0 = some ⟨0, 2⟩
      ∧ ∃ final, CapturesTraced (Program.script .plain relayedVariable) (.start .plain) c final := by
  have horigin : (compile .plain relayedVariable).toOption.bind (·.origin? [0, 0, 0] 0)
      = some ⟨0, 2⟩ := by
    decide +kernel
  obtain ⟨c, hc, horigin⟩ := Option.bind_eq_some_iff.mp horigin
  obtain ⟨final, -, h⟩ := capturesTraced_of_compile (eq_ok_of_toOption hc)
  exact ⟨c, eq_ok_of_toOption hc, horigin, final, h⟩

end StackCode
