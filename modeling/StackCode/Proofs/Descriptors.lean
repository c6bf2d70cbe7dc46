import StackCode.Proofs.ControlFlow
import StackCode.Proofs.Runs

/-!
# Descriptors of outer variables

A scope holds each variable of the scopes around it once, and its descriptors only get more. When it
ends, each descriptor becomes a capture by the parent: a slot of the parent, or one of the parent's
own descriptors, which is one scope closer to the variable.

* `Outers.Extends`: an earlier and a later state of the descriptors of a scope;
* `Capture.Fills`: what a capture stands for in the child;
* `Outers.relays_of_relay`: the captures of a scope that ends fill its descriptors;
* `Assembler.findOuter_eq`: a name is found in the nearest scope that has it.
-/

namespace StackCode

/-! ### Growing -/

namespace Outers

variable {outers after : Outers} {o : Outer} {i : Nat}

/-- A descriptor is found, or appended if it is new. -/
theorem add_eq_ok (h : outers.add o = .ok (i, after)) :
    after = outers ∨ (o ∉ outers.descriptors ∧ after.descriptors = outers.descriptors ++ [o]) := by
  unfold add at h
  split at h
  · simp only [Except.ok.injEq, Prod.mk.injEq] at h
    exact .inl h.2.symm
  · next hf =>
    split at h
    · cases h
    · simp only [Except.ok.injEq, Prod.mk.injEq] at h
      refine .inr ⟨?_, by rw [← h.2]⟩
      exact List.idxOf?_eq_none_iff.mp hf

/-- The descriptors get more, each stays held once, and none is of the scope itself. -/
structure Extends (outers after : Outers) : Prop where
  initial : outers.descriptors <+: after.descriptors
  nodup : outers.descriptors.Nodup → after.descriptors.Nodup
  outside : (∀ o ∈ outers.descriptors, 1 ≤ o.up) → ∀ o ∈ after.descriptors, 1 ≤ o.up

theorem Extends.refl (outers : Outers) : Extends outers outers :=
  ⟨List.prefix_refl _, id, id⟩

theorem Extends.trans {a b c : Outers} (h : Extends a b) (h' : Extends b c) : Extends a c :=
  ⟨h.initial.trans h'.initial, fun hn => h'.nodup (h.nodup hn),
    fun ho => h'.outside (h.outside ho)⟩

theorem extends_of_add (h : outers.add o = .ok (i, after)) (ho : 1 ≤ o.up) :
    Extends outers after := by
  obtain rfl | ⟨hn, he⟩ := add_eq_ok h
  · exact .refl _
  · refine ⟨?_, ?_, ?_⟩
    · rw [he]
      exact List.prefix_append _ _
    · intro hd
      rw [he]
      refine List.nodup_append.mpr ⟨hd, by simp, ?_⟩
      intro x hx y hy hxy
      rw [List.mem_singleton.mp hy] at hxy
      exact hn (hxy ▸ hx)
    · intro hout x hx
      rw [he] at hx
      obtain hx | hx := List.mem_append.mp hx
      · exact hout x hx
      · rw [List.mem_singleton.mp hx]
        exact ho

end Outers

/-! ### Relays -/

/-- What a capture stands for in a child, if the parent has the descriptors `ds`. -/
def Capture.Fills (ds : List Outer) : Capture → Outer → Prop
  | slot n, o => o = ⟨n, 1⟩
  | outer r, o => ∃ x, ds[r]? = some x ∧ o = ⟨x.slot, x.up + 1⟩

/-- A capture stands for one variable. -/
theorem Capture.Fills.unique {ds : List Outer} {c : Capture} {o o' : Outer} (h : c.Fills ds o)
    (h' : c.Fills ds o') : o = o' := by
  cases c with
  | slot n => exact Eq.trans h (Eq.symm h')
  | outer r =>
    obtain ⟨x, hx, rfl⟩ := h
    obtain ⟨y, hy, rfl⟩ := h'
    rw [Option.some.inj (hx.symm.trans hy)]

namespace Outers

/-- The captures of a relay fill the descriptors of the child, one by one. -/
structure Relays (parent : Outers) (os : List Outer) (r : Relay) : Prop where
  grown : Extends parent r.parent
  settled : ∀ o ∈ r.settled, o.up = 1
  length : r.captures.length = os.length
  settled_length : r.settled.length = os.length
  fills : ∀ (j : Nat) (o : Outer), os[j]? = some o →
    ∃ c : Capture, r.captures[j]? = some c ∧ c.Fills r.parent.descriptors o

theorem relays_of_relay {parent : Outers} {os : List Outer} {r : Relay}
    (h : parent.relay os = .ok r) (hos : ∀ o ∈ os, 1 ≤ o.up) : Relays parent os r := by
  induction os generalizing parent r with
  | nil =>
    obtain rfl := Except.ok.inj h
    exact ⟨.refl _, fun o ho => absurd ho List.not_mem_nil, rfl, rfl, fun j o hj => by simp at hj⟩
  | cons o os ih =>
    obtain ⟨ho, hos⟩ := List.forall_mem_cons.mp hos
    unfold relay at h
    split at h
    · next hup =>
      -- a variable of the parent itself
      obtain ⟨r', hr, h⟩ := except_bind_eq_ok.mp h
      obtain rfl := Except.ok.inj h
      obtain ⟨hext, hset, hlen, hlen', hfill⟩ := ih hr hos
      have hone : o.up = 1 := by omega
      refine ⟨hext, List.forall_mem_cons.mpr ⟨hone, hset⟩, congrArg Nat.succ hlen,
        congrArg Nat.succ hlen', ?_⟩
      intro j x hj
      cases j with
      | zero =>
        obtain rfl := Option.some.inj hj
        refine ⟨.slot o.slot, rfl, ?_⟩
        show o = ⟨o.slot, 1⟩
        rw [← hone]
      | succ j => exact hfill j x hj
    · next hup =>
      -- a variable from further out, which the parent needs as well
      obtain ⟨⟨index, parent'⟩, hadd, h⟩ := except_bind_eq_ok.mp h
      obtain ⟨r', hr, h⟩ := except_bind_eq_ok.mp h
      obtain rfl := Except.ok.inj h
      obtain ⟨hext, hset, hlen, hlen', hfill⟩ := ih hr hos
      have hpos : 1 ≤ o.up - 1 := by omega
      refine ⟨(extends_of_add hadd hpos).trans hext, List.forall_mem_cons.mpr ⟨rfl, hset⟩,
        congrArg Nat.succ hlen, congrArg Nat.succ hlen', ?_⟩
      intro j x hj
      cases j with
      | zero =>
        obtain rfl := Option.some.inj hj
        refine ⟨.outer index, rfl, ⟨o.slot, o.up - 1⟩, ?_, ?_⟩
        · exact getElem?_of_initial hext.initial (getElem?_of_add hadd)
        · rw [Nat.sub_add_cancel ho]
      | succ j => exact hfill j x hj

/-- A descriptor of the parent was there before, or it is one of the child, seen from one scope
further out. -/
theorem mem_of_relay {parent : Outers} {os : List Outer} {r : Relay} {o : Outer}
    (h : parent.relay os = .ok r) (ho : o ∈ r.parent.descriptors) :
    o ∈ parent.descriptors ∨ ∃ x ∈ os, 2 ≤ x.up ∧ o = ⟨x.slot, x.up - 1⟩ := by
  induction os generalizing parent r with
  | nil =>
    obtain rfl := Except.ok.inj h
    exact .inl ho
  | cons x os ih =>
    unfold relay at h
    split at h
    · obtain ⟨r', hr, h⟩ := except_bind_eq_ok.mp h
      obtain rfl := Except.ok.inj h
      obtain hold | ⟨y, hy, hnew⟩ := ih hr ho
      · exact .inl hold
      · exact .inr ⟨y, List.mem_cons_of_mem _ hy, hnew⟩
    · next hup =>
      obtain ⟨⟨index, parent'⟩, hadd, h⟩ := except_bind_eq_ok.mp h
      obtain ⟨r', hr, h⟩ := except_bind_eq_ok.mp h
      obtain rfl := Except.ok.inj h
      obtain hold | ⟨y, hy, hnew⟩ := ih hr ho
      · obtain rfl | ⟨-, he⟩ := add_eq_ok hadd
        · exact .inl hold
        · rw [show parent'.descriptors = _ from he] at hold
          obtain hold | hlast := List.mem_append.mp hold
          · exact .inl hold
          · exact .inr ⟨x, List.mem_cons_self, by omega, List.mem_singleton.mp hlast⟩
      · exact .inr ⟨y, List.mem_cons_of_mem _ hy, hnew⟩

/-- Captures that fill different descriptors differ. -/
theorem Relays.nodup {parent : Outers} {os : List Outer} {r : Relay} (h : Relays parent os r)
    (hn : os.Nodup) : r.captures.Nodup := by
  refine List.pairwise_iff_getElem.mpr fun i j hi hj hij heq => ?_
  have hi' : i < os.length := h.length ▸ hi
  have hj' : j < os.length := h.length ▸ hj
  obtain ⟨c, hc, hfill⟩ := h.fills i _ (List.getElem?_eq_getElem hi')
  obtain ⟨c', hc', hfill'⟩ := h.fills j _ (List.getElem?_eq_getElem hj')
  rw [List.getElem?_eq_getElem hi] at hc
  rw [List.getElem?_eq_getElem hj, ← heq] at hc'
  obtain rfl : c = c' := Option.some.inj (hc.symm.trans hc')
  exact List.pairwise_iff_getElem.mp hn i j hi' hj' hij (hfill.unique hfill')

end Outers

/-! ### Names of scopes around -/

namespace Assembler

/-- What is found is further out than the scopes before it. -/
theorem up_of_findOuter {name : String} {up : Nat} {scopes : List Scope} {o : Outer}
    (h : findOuter name up scopes = .ok (some o)) : up ≤ o.up := by
  induction scopes generalizing up with
  | nil => cases h
  | cons s rest ih =>
    unfold findOuter at h
    split at h
    · cases h
    · split at h
      · obtain rfl := Option.some.inj (Except.ok.inj h)
        exact Nat.le_refl _
      · exact Nat.le_of_succ_le (ih h)

/-- A name is found in the nearest scope that has it. -/
theorem findOuter_eq {name : String} {up slot : Nat} {nearer farther : List Scope} {s : Scope}
    {found : Option Outer} (hn : ∀ t ∈ nearer, t.locals.lookup? name = none)
    (hs : s.locals.lookup? name = some slot)
    (h : findOuter name up (nearer ++ s :: farther) = .ok found) :
    found = some ⟨slot, up + nearer.length⟩ := by
  induction nearer generalizing up with
  | nil =>
    simp only [List.nil_append, findOuter, hs] at h
    split at h
    · cases h
    · exact (Except.ok.inj h).symm
  | cons t nearer ih =>
    obtain ⟨ht, hn⟩ := List.forall_mem_cons.mp hn
    simp only [List.cons_append, findOuter, ht] at h
    split at h
    · cases h
    · rw [ih hn h, List.length_cons, Nat.add_assoc, Nat.add_comm 1]

end Assembler

end StackCode
