import StackCode.Proofs.Drafts
import StackCode.Proofs.Exits

/-!
# Contexts that fit

A context knows the loops and the regions around a node by their labels and cleanups. It fits when
its labels have the frames that jumps to them need and its cleanups lead back to where they start.
Then regions can be left.

* `Lawful`: what jumps have to do with exits;
* `LoopFits`, `RegionFits`, `Fits`: loops, regions and contexts that fit;
* `Takes.unwind`, `Takes.lowerBreak`, `Takes.returnTop`, …: leaving regions;
* `Takes.callOp`, `Takes.guarded`, …: the other pieces of scripts that do not recurse on the tree.

The handlers around a node are kept region by region, so that the handlers that are left when some
regions are left can be told. A cleanup is followed for all loops that fit, since it is lowered again
at every exit.
-/

namespace StackCode

open Instruction (effectOf)
open Draft

/-- What is asked of a relation between the frame of a jump and that of its label: it holds between
equal frames, and good exits lead to it. -/
structure Lawful (M : Frame → Frame → Prop) (good : Exit → Prop) : Prop where
  refl : ∀ f, M f f
  exit : ∀ {x : Exit} {gs gs' : List Guard}, good x → (x.stale = false → gs = gs') →
    M ⟨gs, x.here⟩ ⟨gs', x.there⟩

/-! ### Handlers region by region -/

/-- The handlers that are left when all regions but the `depth` outermost ones are left. -/
def guardsAt (walls : List (List Guard)) (depth : Nat) : List Guard :=
  (walls.drop (walls.length - depth)).flatten

theorem guardsAt_length (walls : List (List Guard)) :
    guardsAt walls walls.length = walls.flatten := by
  rw [guardsAt, Nat.sub_self, List.drop_zero]

/-- Inner regions do not matter further out. -/
theorem guardsAt_append {walls : List (List Guard)} {depth : Nat} (h : depth ≤ walls.length)
    (inner : List (List Guard)) : guardsAt (inner ++ walls) depth = guardsAt walls depth := by
  have hn : (inner ++ walls).length - depth = inner.length + (walls.length - depth) := by
    rw [List.length_append]
    omega
  rw [guardsAt, guardsAt, hn, List.drop_append, List.drop_eq_nil_of_le (Nat.le_add_right _ _),
    Nat.add_sub_cancel_left, List.nil_append]

/-! ### Loops that fit -/

/-- A jump to the label lands in a loop with the given note. -/
def LandsIn (labels : List Frame) (walls : List (List Guard)) (note : LoopNote) (l : Label) : Prop :=
  ∃ gs, labels[l]? = some ⟨gs, note.pending⟩
    ∧ (note.stale = false → note.depth ≤ walls.length ∧ gs = guardsAt walls note.depth)

/-- A loop has the labels that its note says. -/
structure LoopFits (labels : List Frame) (walls : List (List Guard)) (l : Loop) (note : LoopNote) :
    Prop where
  depth : note.depth = l.depth
  continuable : note.continuable = l.continueTo.isSome
  breakTo : LandsIn labels walls note l.breakTo
  continueTo : ∀ c, l.continueTo = some c → LandsIn labels walls note c

/-- All loops fit. -/
def LoopsFit (labels : List Frame) (walls : List (List Guard)) : List Loop → List LoopNote → Prop
  | [], [] => True
  | l :: ls, n :: ns => LoopFits labels walls l n ∧ LoopsFit labels walls ls ns
  | _, _ => False

section Loops

variable {labels known : List Frame} {walls inner : List (List Guard)} {ls : List Loop}
  {ns : List LoopNote}

/-- Fitting loops fit wherever jumps to their labels still land in them. -/
theorem LoopsFit.imp {walls' : List (List Guard)} {F : LoopNote → LoopNote}
    (hF : ∀ n l, LandsIn labels walls n l → LandsIn known walls' (F n) l)
    (hd : ∀ n, (F n).depth = n.depth) (hc : ∀ n, (F n).continuable = n.continuable)
    (h : LoopsFit labels walls ls ns) : LoopsFit known walls' ls (ns.map F) := by
  induction ls generalizing ns with
  | nil =>
    cases ns with
    | nil => trivial
    | cons _ _ => exact h.elim
  | cons l ls ih =>
    cases ns with
    | nil => exact h.elim
    | cons n ns =>
      obtain ⟨hl, h⟩ := h
      refine ⟨⟨?_, ?_, hF n _ hl.breakTo, fun c hc => hF n c (hl.continueTo c hc)⟩, ih h⟩
      · rw [hd]
        exact hl.depth
      · rw [hc]
        exact hl.continuable

theorem LoopsFit.mono (h : LoopsFit labels walls ls ns) (hk : labels <+: known) :
    LoopsFit known walls ls ns := by
  rw [← List.map_id ns]
  refine h.imp (fun n l hl => ?_) (fun _ => rfl) (fun _ => rfl)
  obtain ⟨gs, hgs, hs⟩ := hl
  exact ⟨gs, getElem?_of_initial hk hgs, hs⟩

/-- Loops fit inside further regions. -/
theorem LoopsFit.inRegion (h : LoopsFit labels walls ls ns) (w : List Guard) :
    LoopsFit labels (w :: walls) ls ns := by
  rw [← List.map_id ns]
  refine h.imp (fun n l hl => ?_) (fun _ => rfl) (fun _ => rfl)
  obtain ⟨gs, hgs, hs⟩ := hl
  refine ⟨gs, hgs, fun hn => ?_⟩
  obtain ⟨hd, rfl⟩ := hs hn
  exact ⟨Nat.le_succ_of_le hd, (guardsAt_append hd [w]).symm⟩

/-- Outside of some regions, the loops in them have become stale. -/
theorem LoopsFit.seenFrom (h : LoopsFit labels (inner ++ walls) ls ns) :
    LoopsFit labels walls ls (ns.map (·.seenFrom walls.length)) := by
  refine h.imp (fun n l hl => ?_) (fun _ => rfl) (fun _ => rfl)
  obtain ⟨gs, hgs, hs⟩ := hl
  refine ⟨gs, hgs, fun hn => ?_⟩
  simp only [LoopNote.seenFrom, Bool.or_eq_false_iff, decide_eq_false_iff_not, Nat.not_lt] at hn ⊢
  obtain ⟨-, rfl⟩ := hs hn.1
  exact ⟨hn.2, guardsAt_append hn.2 inner⟩

/-- The loop that `continue` means is the one that the notes tell. -/
theorem LoopsFit.continuable (h : LoopsFit labels walls ls ns) {c : Label} {depth : Nat}
    (hc : continuable? ls = some (c, depth)) :
    ∃ n, ns.find? LoopNote.continuable = some n ∧ n.depth = depth ∧ LandsIn labels walls n c := by
  induction ls generalizing ns with
  | nil => cases hc
  | cons l ls ih =>
    cases ns with
    | nil => exact h.elim
    | cons n ns =>
      obtain ⟨hl, h⟩ := h
      unfold continuable? at hc
      cases hcl : l.continueTo with
      | some c' =>
        simp only [hcl, Option.some.injEq, Prod.mk.injEq] at hc
        obtain ⟨rfl, rfl⟩ := hc
        refine ⟨n, List.find?_cons_of_pos ?_, hl.depth, hl.continueTo _ hcl⟩
        rw [hl.continuable, hcl]
        rfl
      | none =>
        simp only [hcl] at hc
        obtain ⟨m, hm, hd⟩ := ih h hc
        refine ⟨m, ?_, hd⟩
        rw [List.find?_cons_of_neg, hm]
        rw [hl.continuable, hcl]
        exact Bool.false_ne_true

end Loops

/-! ### Regions and contexts that fit -/

/-- A region has installed the handlers `w` inside those of the regions around it, and its cleanup
leads back to where it starts, whatever loops there are, if its exits are good. -/
structure RegionFits (M : Frame → Frame → Prop) (good : Exit → Prop) (labels : List Frame)
    (r : Region) (note : Option CleanupNote) (w : List Guard) (outer : List (List Guard)) : Prop where
  size : w.length = (if r.catchInstalled then 1 else 0) + (if r.cleanup.isSome then 1 else 0)
  cleanup : ∀ d, r.cleanup = some d → ∃ exits, note = some exits ∧
    ∀ known loops notes p b, labels <+: known → LoopsFit known outer loops notes →
      (∀ x ∈ exits notes p, good x) →
      Takes M known (d loops) ⟨outer.flatten, p⟩ b ⟨outer.flatten, p⟩ false

/-- All regions fit, the innermost first. -/
inductive RegionsFit (M : Frame → Frame → Prop) (good : Exit → Prop) (labels : List Frame) :
    List Region → List (Option CleanupNote) → List (List Guard) → Prop where
  | nil : RegionsFit M good labels [] [] []
  | cons {r : Region} {rs : List Region} {note : Option CleanupNote}
      {notes : List (Option CleanupNote)} {w : List Guard} {outer : List (List Guard)}
      (hr : RegionFits M good labels r note w outer)
      (h : RegionsFit M good labels rs notes outer) :
      RegionsFit M good labels (r :: rs) (note :: notes) (w :: outer)

/-- A context fits what is noted of it. -/
structure Fits (M : Frame → Frame → Prop) (good : Exit → Prop) (labels : List Frame)
    (ctx : Context) (E : Enclosure) (walls : List (List Guard)) : Prop where
  regions : RegionsFit M good labels ctx.regions E.regions walls
  loops : LoopsFit labels walls ctx.loops E.loops
  coherent : Coherent labels walls.flatten

section Contexts

variable {M : Frame → Frame → Prop} {good : Exit → Prop} {labels known : List Frame}
  {ctx : Context} {E : Enclosure} {walls : List (List Guard)} {rs : List Region}
  {notes : List (Option CleanupNote)}

theorem RegionsFit.mono (h : RegionsFit M good labels rs notes walls) (hk : labels <+: known) :
    RegionsFit M good known rs notes walls := by
  induction h with
  | nil => exact .nil
  | cons hr _ ih =>
    refine .cons ⟨hr.size, fun d hd => ?_⟩ ih
    obtain ⟨exits, hn, h⟩ := hr.cleanup d hd
    exact ⟨exits, hn, fun more loops notes p b hm => h more loops notes p b (hk.trans hm)⟩

theorem RegionsFit.length_eq (h : RegionsFit M good labels rs notes walls) :
    rs.length = walls.length ∧ notes.length = walls.length := by
  induction h with
  | nil => exact ⟨rfl, rfl⟩
  | cons _ _ ih => exact ⟨congrArg (· + 1) ih.1, congrArg (· + 1) ih.2⟩

theorem Coherent.mono {gs : List Guard} (h : Coherent labels gs) (hk : labels <+: known) :
    Coherent known gs := by
  obtain ⟨more, rfl⟩ := hk
  exact h.append more

theorem Fits.mono (h : Fits M good labels ctx E walls) (hk : labels <+: known) :
    Fits M good known ctx E walls :=
  ⟨h.regions.mono hk, h.loops.mono hk, h.coherent.mono hk⟩

/-- The context at the start of a unit fits. -/
theorem fits_start {ctx : Context} (hr : ctx.regions = []) (hl : ctx.loops = []) :
    Fits M good labels ctx {} [] := by
  refine ⟨?_, ?_, trivial⟩
  · rw [hr]
    exact .nil
  · rw [hl]
    trivial

/-- The context inside a loop fits. -/
theorem Fits.inLoop (h : Fits M good labels ctx E walls) {breakTo : Label}
    {continueTo : Option Label} (hb : labels[breakTo]? = some ⟨walls.flatten, E.pending⟩)
    (hc : ∀ c, continueTo = some c → labels[c]? = some ⟨walls.flatten, E.pending⟩) :
    Fits M good labels (ctx.inLoop breakTo continueTo) (E.inLoop continueTo.isSome) walls := by
  obtain ⟨hr, hn⟩ := h.regions.length_eq
  have hlands : ∀ l, labels[l]? = some ⟨walls.flatten, E.pending⟩ →
      LandsIn labels walls ⟨continueTo.isSome, E.regions.length, false, E.pending⟩ l := by
    intro l hl
    refine ⟨_, hl, fun _ => ?_⟩
    simp only [hn]
    exact ⟨Nat.le_refl _, (guardsAt_length walls).symm⟩
  exact ⟨h.regions, ⟨⟨hn.trans hr.symm, rfl, hlands _ hb, fun c hc' => hlands c (hc c hc')⟩, h.loops⟩,
    h.coherent⟩

/-- The context inside a region fits. -/
theorem Fits.inRegion (h : Fits M good labels ctx E walls) {catchInstalled : Bool}
    {cleanup : Option (List Loop → Draft)} {note : Option CleanupNote} {w : List Guard}
    (hr : RegionFits M good labels ⟨catchInstalled, cleanup⟩ note w walls)
    (hw : Coherent labels (w ++ walls.flatten)) :
    Fits M good labels (ctx.inRegion catchInstalled cleanup) (E.inRegion note) (w :: walls) :=
  ⟨.cons hr h.regions, h.loops.inRegion w, hw⟩

end Contexts

/-! ### Leaving regions -/

namespace Takes

variable {M : Frame → Frame → Prop} {good : Exit → Prop} {labels : List Frame}
  {ctx : Context} {E : Enclosure} {walls : List (List Guard)} {b : Bool}

/-- Leaving `n` regions removes their handlers. -/
theorem unwind {rs : List Region} {notes : List (Option CleanupNote)} {loops : List Loop}
    {loopNotes : List LoopNote} {n p : Nat} (h : RegionsFit M good labels rs notes walls)
    (inner : List (List Guard)) (hl : LoopsFit labels (inner ++ walls) loops loopNotes)
    (hx : ∀ x ∈ unwindExits loopNotes p n notes, good x) :
    Takes M labels (unwind loops n rs) ⟨walls.flatten, p⟩ b ⟨(walls.drop n).flatten, p⟩ false := by
  induction h generalizing inner n b with
  | nil =>
    cases n with
    | zero => exact nil.forget
    | succ n => exact nil.forget
  | @cons r rs note notes w outer hr hrs ih =>
    cases n with
    | zero => exact nil.forget
    | succ n =>
      have hl' : LoopsFit labels ((inner ++ [w]) ++ outer) loops loopNotes := by
        rw [List.append_assoc]
        exact hl
      obtain ⟨hx, hxs⟩ := List.forall_mem_append.mp hx
      -- first the handler of the catch clause, then that of the cleanup
      have hcatch : ∃ w', w'.length = (if r.cleanup.isSome then 1 else 0) ∧
          Takes M labels (if r.catchInstalled then StackCode.plain .endTry else Draft.nil)
            ⟨w ++ outer.flatten, p⟩ b ⟨w' ++ outer.flatten, p⟩ false := by
        have hsize := hr.size
        cases hc : r.catchInstalled with
        | false =>
          rw [hc] at hsize
          exact ⟨w, by simpa using hsize, nil.forget⟩
        | true =>
          rw [hc] at hsize
          cases w with
          | nil => simp at hsize; omega
          | cons x w' =>
            refine ⟨w', ?_, endTry.forget⟩
            rw [List.length_cons, if_pos rfl, Nat.add_comm 1] at hsize
            exact Nat.succ.inj hsize
      obtain ⟨w', hsize, hcatch⟩ := hcatch
      refine (hcatch.append ?_).append (ih (b := false) _ hl' hxs)
      cases hc : r.cleanup with
      | none =>
        rw [hc] at hsize
        obtain rfl := List.length_eq_zero_iff.mp hsize
        exact nil
      | some d =>
        rw [hc] at hsize
        obtain ⟨x, rfl⟩ := List.length_eq_one_iff.mp hsize
        obtain ⟨exits, rfl, hd⟩ := hr.cleanup d hc
        have hlen : notes.length = outer.length := hrs.length_eq.2
        simp only [hlen] at hx
        exact endTry.append (hd labels loops _ p true (List.prefix_refl _) hl'.seenFrom hx)

/-- A jump to a loop leaves all regions that are not around the loop. -/
theorem leaveFor (law : Lawful M good) (h : Fits M good labels ctx E walls) {note : LoopNote}
    {l : Label} (hl : LandsIn labels walls note l) (hx : ∀ x ∈ E.leaveFor note, good x) :
    Takes M labels (ctx.unwindTo note.depth ++ StackCode.jump .jump l) ⟨walls.flatten, E.pending⟩ b
      ⟨walls.flatten, E.pending⟩ false := by
  obtain ⟨hr, hn⟩ := h.regions.length_eq
  obtain ⟨hx, hexit⟩ := List.forall_mem_append.mp hx
  have hgood := hexit _ (List.mem_singleton.mpr rfl)
  obtain ⟨gs, hgs, hs⟩ := hl
  have hmeets : M ⟨guardsAt walls note.depth, E.pending⟩ ⟨gs, note.pending⟩ :=
    law.exit hgood fun hn => (hs hn).2.symm
  have hunwind := unwind (b := b) (p := E.pending) h.regions [] h.loops hx
  have hlen : E.regions.length - note.depth = ctx.regions.length - note.depth := by rw [hn, hr]
  rw [hlen] at hunwind
  have hdrop : (walls.drop (ctx.regions.length - note.depth)).flatten = guardsAt walls note.depth := by
    rw [hr, guardsAt]
  rw [hdrop] at hunwind
  have hleap : Takes M labels (StackCode.jump .jump l) ⟨guardsAt walls note.depth, E.pending⟩ false
      ⟨walls.flatten, E.pending⟩ true := leap hgs hmeets h.coherent (Nat.le_refl _)
  exact (hunwind.append hleap).forget

theorem lowerBreak (law : Lawful M good) (h : Fits M good labels ctx E walls) {line : Nat}
    (hx : ∀ x ∈ E.breakExits, good x) :
    Takes M labels (lowerBreak ctx line) ⟨walls.flatten, E.pending⟩ b ⟨walls.flatten, E.pending⟩
      false := by
  have hloops := h.loops
  unfold StackCode.lowerBreak
  cases hl : ctx.loops with
  | nil => exact refuse
  | cons l ls =>
    rw [hl] at hloops
    cases hn : E.loops with
    | nil =>
      rw [hn] at hloops
      exact hloops.elim
    | cons n ns =>
      rw [hn] at hloops
      obtain ⟨hln, -⟩ := hloops
      simp only [Enclosure.breakExits, hn] at hx
      simp only [← hln.depth]
      exact leaveFor law h hln.breakTo hx

theorem lowerContinue (law : Lawful M good) (h : Fits M good labels ctx E walls) {line : Nat}
    (hx : ∀ x ∈ E.continueExits, good x) :
    Takes M labels (lowerContinue ctx line) ⟨walls.flatten, E.pending⟩ b ⟨walls.flatten, E.pending⟩
      false := by
  unfold StackCode.lowerContinue
  cases hc : continuable? ctx.loops with
  | none => exact refuse
  | some found =>
    obtain ⟨c, depth⟩ := found
    obtain ⟨n, hn, rfl, hland⟩ := h.loops.continuable hc
    simp only [Enclosure.continueExits, hn] at hx
    exact leaveFor law h hland hx

/-- The value to be returned stays on the stack while the regions are left. -/
theorem returnTop (h : Fits M good labels ctx E walls) (hx : ∀ x ∈ E.returnExits, good x) :
    Takes M labels ctx.returnTop ⟨walls.flatten, E.pending + 1⟩ b ⟨walls.flatten, E.pending⟩ false := by
  obtain ⟨hr, hn⟩ := h.regions.length_eq
  have hunwind := unwind (b := b) (p := E.pending + 1) h.regions [] h.loops hx
  have hlen : E.regions.length - 0 = ctx.regions.length - 0 := by rw [hn, hr]
  have hdrop : (walls.drop (ctx.regions.length - 0)).flatten = [] := by
    rw [Nat.sub_zero, hr, List.drop_length, List.flatten_nil]
  rw [hlen, hdrop] at hunwind
  exact (hunwind.append (ret h.coherent (Nat.le_refl _))).forget

end Takes

/-! ### Pieces of scripts -/

theorem Instruction.pair_pack {op : Opcode} {a b : Nat} (ha : a ≤ maxPair) (hb : b ≤ maxPair) :
    (pack op (a + 0x1000 * b)).pair = (a, b) := by
  have hlt : a + 0x1000 * b < 0x1000000 := by
    simp only [maxPair] at ha hb
    omega
  simp only [maxPair] at ha hb
  simp only [pair, unsigned_pack hlt, Prod.mk.injEq]
  omega

namespace Takes

variable {M : Frame → Frame → Prop} {labels : List Frame} {f g : Frame} {H : List Guard} {n : Nat}
  {b c : Bool} {ctx : Context}

theorem value (v : Value) : Takes M labels v.lower ⟨H, n⟩ b ⟨H, n + 1⟩ true := by
  unfold Value.lower
  split
  · exact push (.inl rfl)
  · exact push (.inr (.inl rfl))
  · exact push (.inr (.inr (.inl rfl)))
  · exact loadConst

theorem binary (op : BinaryOp) :
    Takes M labels (StackCode.plain op.opcode) ⟨H, n + 2⟩ b ⟨H, n + 1⟩ true := by
  cases op <;> exact plain 2 1 rfl rfl

theorem unary (op : UnaryOp) :
    Takes M labels (StackCode.plain op.opcode) ⟨H, n + 1⟩ b ⟨H, n + 1⟩ true := by
  cases op <;> exact plain 1 1 rfl rfl

/-- The height of the arguments on the stack: a named one has its name below it. -/
theorem callOp (args : List Arg) :
    Takes M labels (callOp args false) ⟨H, n + 1 + args.length + args.countP Arg.isNamed⟩ b
      ⟨H, n + 1⟩ true := by
  have hle : args.countP Arg.isNamed ≤ args.length := List.countP_le_length
  unfold StackCode.callOp
  simp only [Bool.false_eq_true, if_false]
  split
  · unfold callNamedOp
    have hn : n + 1 + args.length + args.countP Arg.isNamed
        = n + (1 + (args.length - args.countP Arg.isNamed) + 2 * args.countP Arg.isNamed) := by
      omega
    split
    · next hbig =>
      refine final fun known fresh _ => ⟨⟨known, ⟨H, 0⟩, true⟩, .write rfl (fun i hi => ?_) .done⟩
      simp only [Bool.or_eq_true, decide_eq_true_eq] at hbig
      obtain ⟨⟨h₁, h₂⟩, -⟩ := hi
      omega
    · rw [hn]
      refine ordinary _ 1 rfl fun i hi => ⟨.callNamed, ?_, rfl, ?_⟩
      · obtain ⟨⟨h₁, h₂⟩, rfl⟩ := hi
        refine Instruction.opcode?_pack ?_
        simp only [Instruction.maxPair] at h₁ h₂
        omega
      · obtain ⟨⟨h₁, h₂⟩, rfl⟩ := hi
        simp only [effectOf, Instruction.pair_pack h₁ h₂]
  · have hn : n + 1 + args.length + args.countP Arg.isNamed
        = n + (args.length - args.countP Arg.isNamed + 1) := by
      omega
    rw [hn]
    refine count _ 1 rfl fun ha => ?_
    simp only [effectOf, Instruction.unsigned_pack (Nat.lt_succ_of_le ha)]

/-- A tail call leads anywhere, and counts as one that leaves a value. -/
theorem tailOp (args : List Arg) (hg : Coherent labels g.guards) (hh : g.height ≤ n + 1) :
    Takes M labels (StackCode.callOp args true)
      ⟨[], n + 1 + args.length + args.countP Arg.isNamed⟩ b g true := by
  have hle : args.countP Arg.isNamed ≤ args.length := List.countP_le_length
  have hn : n + 1 + args.length + args.countP Arg.isNamed
      = n + 2 * args.countP Arg.isNamed + (args.length - args.countP Arg.isNamed + 1) := by
    omega
  rw [hn]
  exact tailCall hg (by omega)

theorem methodOp (args : List Arg) (line : Nat) :
    Takes M labels (methodOp args line) ⟨H, n + 2 + args.length + args.countP Arg.isNamed⟩ b
      ⟨H, n + 1⟩ true := by
  unfold StackCode.methodOp
  split
  · exact refuse
  · next hnone =>
    have hzero : args.countP Arg.isNamed = 0 := by
      rw [List.countP_eq_zero]
      intro a ha hn
      exact hnone (List.any_eq_true.mpr ⟨a, ha, hn⟩)
    rw [hzero, Nat.add_zero, Nat.add_assoc, Nat.add_comm 2]
    refine count _ 1 rfl fun ha => ?_
    simp only [effectOf, Instruction.unsigned_pack (Nat.lt_succ_of_le ha)]

theorem unmixed {args : List Arg} {call : String} {line : Nat} {d : Draft}
    (hd : Takes M labels d f b g c) : Takes M labels (unmixed args call line d) f b g c := by
  unfold StackCode.unmixed
  split
  · exact refuse
  · exact hd

theorem predeclare {name : String} : Takes M labels (predeclare ctx name) f b f b := by
  unfold StackCode.predeclare
  split
  · exact quiet rfl
  · exact nil
  · exact nil

theorem bindDeclared {name : String} :
    Takes M labels (bindDeclared ctx name) ⟨H, n + 1⟩ b ⟨H, n⟩ true := by
  unfold StackCode.bindDeclared
  split
  · exact named 1 0 rfl fun _ => rfl
  · exact named 1 0 rfl fun _ => rfl
  · exact storeSlot

/-! ### Handlers around a body -/

/-- The body of a region is followed under one handler more. -/
theorem guarded {handler : Option Draft} {body : Draft} (law : ∀ f, M f f)
    (hH : Coherent labels H)
    (hbody : ∀ known w b, labels <+: known → w.length = (if handler.isSome then 1 else 0) →
      Coherent known (w ++ H) → Takes M known body ⟨w ++ H, n⟩ b ⟨w ++ H, n⟩ false)
    (hclause : ∀ d known, handler = some d → labels <+: known →
      Takes M known d ⟨H, n + 1⟩ false ⟨H, n⟩ false) :
    Takes M labels (guarded handler body) ⟨H, n⟩ b ⟨H, n⟩ false := by
  cases handler with
  | none => exact hbody labels [] b (List.prefix_refl _) rfl hH
  | some d =>
    unfold StackCode.guarded
    refine withLabel ⟨H, n + 1⟩ fun known₁ l hk₁ hl => ?_
    have hco : Coherent known₁ (⟨.tryCatch, l⟩ :: H) := ⟨⟨_, hl, rfl⟩, hH.mono hk₁⟩
    refine (((install rfl hl).append (hbody known₁ [⟨.tryCatch, l⟩] _ hk₁ rfl hco)).append
      endTry).append ?_
    refine withLabel ⟨H, n⟩ fun known₂ done hk₂ hdone => ?_
    have hk := hk₁.trans hk₂
    exact ((handler hdone (law _) (getElem?_of_initial hk₂ hl) (hH.mono hk) (Nat.le_refl _)).append
      (hclause d known₂ rfl hk)).append (place hdone)

/-- The body of a region is followed under the handler of its cleanup, which then follows. -/
theorem cleaned {cleanup : Option Draft} {body : Draft} (hH : Coherent labels H)
    (hbody : ∀ known w b, labels <+: known → w.length = (if cleanup.isSome then 1 else 0) →
      Coherent known (w ++ H) → Takes M known body ⟨w ++ H, n⟩ b ⟨w ++ H, n⟩ false)
    (hclause : ∀ d known b, cleanup = some d → labels <+: known →
      Takes M known d ⟨H, n⟩ b ⟨H, n⟩ false) :
    Takes M labels (cleaned cleanup body) ⟨H, n⟩ b ⟨H, n⟩ false := by
  cases cleanup with
  | none => exact hbody labels [] b (List.prefix_refl _) rfl hH
  | some d =>
    unfold StackCode.cleaned
    refine withLabel ⟨H, n⟩ fun known l hk hl => ?_
    have hco : Coherent known (⟨.tryFinally, l⟩ :: H) := ⟨⟨_, hl, rfl⟩, hH.mono hk⟩
    have hend : Takes M known (StackCode.plain .endFinally) ⟨H, n⟩ false ⟨H, n⟩ true :=
      plain 0 0 rfl rfl
    exact (((((install rfl hl).append (hbody known [⟨.tryFinally, l⟩] _ hk rfl hco)).append
      endTry).append (place hl)).append (hclause d known _ rfl hk)).append hend |>.forget

end Takes

end StackCode
