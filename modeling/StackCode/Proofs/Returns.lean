import StackCode.Proofs.Untailing

/-!
# Scripts that lead to a return

After a call in a branch of the returned expression, the script has nothing but jumps, labels and ends
of blocks up to the return. So has the code.

* `Script.Leads`: such a script, within the script of its unit;
* `Scope.Lasts`: what is written stays, duplications and stores apart, and so do placeholders and
  labels that are set;
* `Step.Change.lasts`, `Step.lasts_of_runAll`: every step, and every script, makes things last;
* `Script.Leads.reachesReturn`: the code of a script that leads to a return.
-/

namespace StackCode

/-- From here on the script does nothing but jump until it returns; `body` is the script of the whole
unit. -/
inductive Script.Leads (body : Script) : Script → Prop where
  | ret {xs : Script} : Leads body (.op .ret :: xs)
  | place {l : Label} {xs : Script} (h : Leads body xs) : Leads body (.place l :: xs)
  | leaveBlock {xs : Script} (h : Leads body xs) : Leads body (.leaveBlock :: xs)
  | jump {l : Label} {before after xs : Script} (hl : body = before ++ .place l :: after)
      (h : Leads body after) : Leads body (.jump .jump l :: xs)

/-- What stands in the code of a scope stands there later on, unless it takes part in a duplication
that may be taken back. -/
structure Scope.Lasts (s t : Scope) : Prop where
  code : ∀ (p : Nat) i op, s.code.toList[p]? = some i → i.opcode? = some op → op ≠ .dup →
    op.isStore = false → t.code.toList[p]? = some i
  uses : ∀ l u, s.labels.Uses l u → t.labels.Uses l u
  position : ∀ l q, s.labels.position? l = some q → t.labels.position? l = some q

namespace Scope.Lasts

variable {s t r : Scope}

theorem refl (s : Scope) : Lasts s s :=
  ⟨fun _ _ _ hi _ _ _ => hi, fun _ _ hu => hu, fun _ _ hq => hq⟩

theorem trans (h : Lasts s t) (h' : Lasts t r) : Lasts s r :=
  ⟨fun p i op hi hop hd hs => h'.code p i op (h.code p i op hi hop hd hs) hop hd hs,
    fun l u hu => h'.uses l u (h.uses l u hu), fun l q hq => h'.position l q (h.position l q hq)⟩

/-- The code got longer. -/
theorem of_append {is : List Instruction} (hcode : t.code.toList = s.code.toList ++ is)
    (huses : ∀ l u, s.labels.Uses l u → t.labels.Uses l u)
    (hposition : ∀ l q, s.labels.position? l = some q → t.labels.position? l = some q) :
    Lasts s t := by
  refine ⟨?_, huses, hposition⟩
  intro p i op hi _ _ _
  rw [hcode]
  exact getElem?_of_initial (List.prefix_append _ _) hi

/-- No instruction was emitted. -/
theorem of_eq (hcode : t.code = s.code)
    (huses : ∀ l u, s.labels.Uses l u → t.labels.Uses l u)
    (hposition : ∀ l q, s.labels.position? l = some q → t.labels.position? l = some q) :
    Lasts s t := by
  have happend : t.code.toList = s.code.toList ++ [] := by rw [hcode, List.append_nil]
  exact of_append happend huses hposition

/-- A duplication was taken back: the store behind it moves. -/
theorem of_drop (hspare : s.endsInSpareDup = true) (hcode : t.code = s.withoutSpareDup.code)
    (hlabels : t.labels = s.labels) : Lasts s t := by
  obtain ⟨hn, ⟨i, op, hi, hop, hst⟩, ⟨j, hj, hdup⟩, -⟩ := Scope.endsInSpareDup_iff.mp hspare
  refine ⟨?_, by rw [hlabels]; exact fun _ _ hu => hu, by rw [hlabels]; exact fun _ _ hq => hq⟩
  intro p k o hk ho hd hs
  rw [Array.getElem?_toList] at hk ⊢
  have hlt := (Array.getElem?_eq_some_iff.mp hk).1
  have hbefore : p < s.code.size - 2 := by
    have h₁ : p ≠ s.code.size - 1 := by
      rintro rfl
      obtain rfl := Option.some.inj (hi.symm.trans hk)
      obtain rfl := Option.some.inj (hop.symm.trans ho)
      exact absurd (hs.symm.trans hst) Bool.false_ne_true
    have h₂ : p ≠ s.code.size - 2 := by
      rintro rfl
      obtain rfl := Option.some.inj (hj.symm.trans hk)
      exact hd (Option.some.inj (ho.symm.trans hdup))
    omega
  rw [hcode, Scope.getElem?_withoutSpareDup hn, if_pos hbefore]
  exact hk

end Scope.Lasts

/-- One step makes things last. -/
theorem Step.Change.lasts {x : Step} {s t : Scope} (h : x.Change s t) : s.Lasts t := by
  cases h with
  | keep hcode hlabels =>
    refine .of_eq hcode ?_ ?_
    · rw [hlabels]
      exact fun _ _ hu => hu
    · rw [hlabels]
      exact fun _ _ hq => hq
  | write i captures op hi hop hcaptures hcode hlabels =>
    refine .of_append hcode ?_ ?_
    · rw [hlabels]
      exact fun _ _ hu => hu
    · rw [hlabels]
      exact fun _ _ hq => hq
  | label hcode hlabels =>
    refine .of_eq hcode ?_ ?_
    · intro l u hu
      rw [hlabels]
      exact Labels.uses_push.mpr hu
    · intro l q hq
      rw [hlabels, Labels.position?_push]
      exact hq
  | jump op l hx hop hl hcode hlabels =>
    refine .of_append hcode ?_ ?_
    · intro k u hu
      rw [hlabels]
      exact (Labels.uses_used hl).mpr (.inl hu)
    · intro k q hq
      rw [hlabels, Labels.position?_used]
      exact hq
  | place l hx hl hnew hcode hlabels =>
    refine .of_eq hcode ?_ ?_
    · intro k u hu
      rw [hlabels]
      exact Labels.uses_placed.mpr hu
    · intro k q hq
      have hne : k ≠ l := by
        rintro rfl
        rw [hnew] at hq
        cases hq
      rw [hlabels, Labels.position?_placed hl, if_neg hne]
      exact hq
  | drop hx hspare hcode hlabels => exact .of_drop hspare hcode hlabels

/-- A whole script makes things last. -/
theorem Step.lasts_of_runAll {xs : Script} {a b : Assembler} (hx : ∀ x ∈ xs, x.isProper = true)
    (h : Step.runAll xs a = .ok () b) : a.current.Lasts b.current := by
  induction xs generalizing a with
  | nil =>
    obtain ⟨-, rfl⟩ := Edit.pure_eq_ok.mp h
    exact .refl _
  | cons x xs ih =>
    obtain ⟨hx, hxs⟩ := List.forall_mem_cons.mp hx
    obtain ⟨c, hc, h⟩ := Step.runAll_cons_eq_ok.mp h
    exact (Step.change hx hc).lasts.trans (ih hxs h)

/-- What a script has done lasts to the end of its unit. -/
theorem Step.lasts_of_part {body before after : Script} {start a b : Assembler}
    (hproper : ∀ x ∈ body, x.isProper = true) (hbody : body = before ++ after)
    (ha : Step.runAll before start = .ok () a) (hb : Step.runAll body start = .ok () b) :
    a.current.Lasts b.current := by
  subst hbody
  obtain ⟨c, hc, hb⟩ := Step.runAll_append_eq_ok.mp hb
  obtain ⟨-, rfl⟩ := EStateM.Result.ok.inj (ha.symm.trans hc)
  exact Step.lasts_of_runAll (fun x hx => hproper x (List.mem_append_right _ hx)) hb

/-- The next step of a script that is run to its end. -/
theorem Step.exists_of_runAll {body before after : Script} {x : Step} {start a b : Assembler}
    (hbody : body = before ++ x :: after) (ha : Step.runAll before start = .ok () a)
    (hb : Step.runAll body start = .ok () b) :
    ∃ c, Step.run x a = .ok () c ∧ Step.runAll (before ++ [x]) start = .ok () c := by
  subst hbody
  obtain ⟨d, hd, hb⟩ := Step.runAll_append_eq_ok.mp hb
  obtain ⟨-, rfl⟩ := EStateM.Result.ok.inj (ha.symm.trans hd)
  obtain ⟨c, hc, -⟩ := Step.runAll_cons_eq_ok.mp hb
  exact ⟨c, hc, Step.runAll_concat ha hc⟩

/-- The code of a script that leads to a return does so too. -/
theorem Script.Leads.reachesReturn {body before after : Script} {start a b : Assembler}
    {code : Buffer} {h : History} {begins : Step → Nat → Prop} (hleads : Script.Leads body after)
    (hproper : ∀ x ∈ body, x.isProper = true) (hlog : Logged h begins b.current)
    (hb : Step.runAll body start = .ok () b)
    (hcode : b.current.labels.reconcile b.current.code = .ok () code)
    (hbody : body = before ++ after) (ha : Step.runAll before start = .ok () a) :
    ReachesReturn code.toList a.current.code.size := by
  induction hleads generalizing before a with
  | @ret xs =>
    obtain ⟨c, hc, hc'⟩ := Step.exists_of_runAll hbody ha hb
    obtain ⟨p, hc⟩ := Edit.ignore_eq_ok.mp hc
    obtain ⟨s, hs, rfl⟩ := Assembler.onCurrent_eq_ok.mp hc
    obtain ⟨-, -, rfl⟩ := Scope.emitOp_eq_ok.mp hs
    have hat : (a.current.appended (.plain .ret)).code.toList[a.current.code.size]?
        = some (.plain .ret) := by
      rw [Array.getElem?_toList]
      exact Array.getElem?_push_size
    have hlast := (Step.lasts_of_part hproper (hbody.trans (List.append_cons _ _ _)) hc' hb).code _ _ .ret hat
      (Instruction.opcode?_plain .ret) (by decide) rfl
    obtain ⟨j, hj, hop⟩ := hlog.getElem?_of_reconcile hcode hlast
    exact .ret hj (hop.trans (Instruction.opcode?_plain .ret))
  | @place l xs _ ih =>
    obtain ⟨c, hc, hc'⟩ := Step.exists_of_runAll hbody ha hb
    obtain ⟨s, hs, rfl⟩ := Assembler.onCurrent_eq_ok.mp hc
    obtain ⟨-, -, rfl⟩ := Scope.placeLabel_eq_ok.mp hs
    have hnext := ih (hbody.trans (List.append_cons _ _ _)) hc'
    exact hnext
  | @leaveBlock xs _ ih =>
    obtain ⟨c, hc, hc'⟩ := Step.exists_of_runAll hbody ha hb
    obtain ⟨s, hs, rfl⟩ := Assembler.onCurrent_eq_ok.mp hc
    obtain ⟨marker, blocks, -, rfl⟩ := Scope.leaveBlock_eq_ok.mp hs
    have hnext := ih (hbody.trans (List.append_cons _ _ _)) hc'
    exact hnext
  | @jump l before' after' xs hl _ ih =>
    obtain ⟨c, hc, hc'⟩ := Step.exists_of_runAll hbody ha hb
    obtain ⟨p, hc⟩ := Edit.ignore_eq_ok.mp hc
    obtain ⟨s, hs, rfl⟩ := Assembler.onCurrent_eq_ok.mp hc
    obtain ⟨-, hin, -, rfl⟩ := Scope.emitJump_eq_ok.mp hs
    -- the placeholder of the jump
    have huse : b.current.labels.Uses l ⟨a.current.code.size, .jump⟩ :=
      (Step.lasts_of_part hproper (hbody.trans (List.append_cons _ _ _)) hc' hb).uses _ _
        ((Labels.uses_used hin).mpr (.inr ⟨rfl, rfl⟩))
    obtain ⟨q, hq, hlo, hhi, hi⟩ :=
      Labels.getElem?_of_reconcile hcode hlog.single (fun _ _ => hlog.position_le) huse
    -- the label that it jumps to
    have hb' := hb
    rw [hl] at hb'
    obtain ⟨d, hd, -⟩ := Step.runAll_append_eq_ok.mp hb'
    obtain ⟨e, he, he'⟩ := Step.exists_of_runAll hl hd hb
    obtain ⟨s, hs, rfl⟩ := Assembler.onCurrent_eq_ok.mp he
    obtain ⟨hin', -, rfl⟩ := Scope.placeLabel_eq_ok.mp hs
    have hl' := hl.trans (List.append_cons _ _ _)
    have hset := (Step.lasts_of_part hproper hl' he' hb).position l d.current.code.size (by
      rw [Labels.position?_placed hin', if_pos rfl])
    obtain rfl := Option.some.inj (hq.symm.trans hset)
    rw [← Array.getElem?_toList] at hi
    have hnext := ih hl' he'
    exact .jump hi (Instruction.opcode?_pack (Instruction.signedField_lt _))
      (Instruction.jumpTarget?_distance rfl hlo hhi) hnext

end StackCode
