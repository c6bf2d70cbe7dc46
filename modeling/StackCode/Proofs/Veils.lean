import StackCode.Proofs.Runs

/-!
# Veils

Some of what an assembler keeps does not influence what it does: the record of lifetimes, the last line
that was marked, and the units that were made. A *veil* replaces these parts, and an edit does the same
to a state as to the state behind a veil, failures included.

* `Edit.Respects`: an edit does the same to a state and to what becomes of it under a map;
* `Veil`, `Veil.scope`, `Veil.assembler`: the parts that are replaced;
* `Veil.respects_emit`, `respects_discard`, …: one statement for each edit of a scope;
* `Veil.respects_step`: every step but those that mark a line or make a unit;
* `Veil.Whole`, `Veil.Whole.respects_run`, `Veil.Whole.respects_assemble`: where units begin and end
  behind the veil, all steps respect it, and so does the assembly of a whole program.
-/

namespace StackCode

/-! ### Edits seen through a map -/

namespace Edit

variable {σ τ α β : Type} {f : σ → τ} {s : σ}

/-- An answer or a failure, with the state behind it seen through `f`. -/
def through (f : σ → τ) : EStateM.Result Error σ α → EStateM.Result Error τ α
  | .ok a s => .ok a (f s)
  | .error e s => .error e (f s)

/-- What `y` does to `f s` is what `x` does to `s`. -/
def Respects (f : σ → τ) (x : Edit σ α) (y : Edit τ α) (s : σ) : Prop := y (f s) = through f (x s)

theorem Respects.pure (a : α) : Respects f (Pure.pure a) (Pure.pure a) s := rfl

theorem Respects.throw (e : Error) : Respects (α := α) f (throw e) (throw e) s := rfl

theorem Respects.set {t : σ} {t' : τ} (h : t' = f t) :
    Respects f (MonadStateOf.set t) (MonadStateOf.set t') s := by
  subst h
  rfl

theorem Respects.modify {g : σ → σ} {g' : τ → τ} (h : g' (f s) = f (g s)) :
    Respects f (modify g) (modify g') s := by
  show EStateM.Result.ok _ (g' (f s)) = _
  rw [h]
  rfl

theorem Respects.ofExcept (x : Except Error α) : Respects f (ofExcept x) (ofExcept x) s := by
  cases x <;> rfl

theorem Respects.bind {x : Edit σ α} {y : Edit τ α} {k : α → Edit σ β} {l : α → Edit τ β}
    (h : Respects f x y s) (hk : ∀ a t, x s = .ok a t → Respects f (k a) (l a) t) :
    Respects f (x >>= k) (y >>= l) s := by
  show EStateM.bind y l (f s) = through f (EStateM.bind x k s)
  unfold EStateM.bind
  rw [show y (f s) = through f (x s) from h]
  cases hx : x s with
  | ok a t => exact hk a t hx
  | error e t => rfl

theorem Respects.throw_bind {e : Error} {k : α → Edit σ β} {l : α → Edit τ β} :
    Respects f (MonadExcept.throw e >>= k) (MonadExcept.throw e >>= l) s := rfl

theorem Respects.get_bind {k : σ → Edit σ β} {l : τ → Edit τ β}
    (h : Respects f (k s) (l (f s)) s) : Respects f (get >>= k) (get >>= l) s := h

theorem Respects.ignore {x : Edit σ α} {y : Edit τ α} (h : Respects f x y s) :
    Respects f (ignore x) (ignore y) s :=
  h.bind fun _ _ _ => .pure ()

theorem Respects.map {x : Edit σ α} {y : Edit τ α} {g : α → β} (h : Respects f x y s) :
    Respects f (g <$> x) (g <$> y) s := by
  rw [map_eq_pure_bind, map_eq_pure_bind]
  exact h.bind fun _ _ _ => .pure _

/-- A part of the state is changed that looks the same through the map. -/
theorem Respects.within {ρ : Type} {focus : σ → ρ × (ρ → σ)} {focus' : τ → ρ × (ρ → τ)}
    {x : Edit ρ α} (hpart : (focus' (f s)).1 = (focus s).1)
    (hback : ∀ t, (focus' (f s)).2 t = f ((focus s).2 t)) :
    Respects f (within focus x) (within focus' x) s := by
  unfold Respects Edit.within
  simp only [hpart]
  cases x (focus s).1 with
  | ok a t => exact congrArg (EStateM.Result.ok a) (hback t)
  | error e t => exact congrArg (EStateM.Result.error e) (hback t)

/-- The same success on the other side. -/
theorem Respects.ok {x : Edit σ α} {y : Edit τ α} {a : α} {t : σ} (h : Respects f x y s)
    (hx : x s = .ok a t) : y (f s) = .ok a (f t) := by
  rw [show y (f s) = through f (x s) from h, hx]
  rfl

end Edit

/-! ### Veils -/

/-- Whether a step neither marks a line nor makes a unit. -/
def Step.isIndifferent : Step → Bool
  | markLine _ | unit _ _ _ _ => false
  | _ => true

/-- Replacements for the parts of an assembler that do not influence what it does. -/
structure Veil where
  config : Config → Config
  recorder : Option Recorder → Option Recorder
  lastLine : Option Nat → Option Nat
  unit : CodeObject → CodeObject
  /-- A record that is changed looks like a changed record. -/
  recorder_map : ∀ change r, recorder (r.map change) = (recorder r).map change

namespace Veil

open Edit

variable {v : Veil} {s : Scope} {a : Assembler}

/-- A scope behind a veil. -/
def scope (v : Veil) (s : Scope) : Scope :=
  { s with
    recorder := v.recorder s.recorder
    lastLine := v.lastLine s.lastLine
    children := s.children.map v.unit }

/-- An assembler behind a veil. -/
def assembler (v : Veil) (a : Assembler) : Assembler where
  config := v.config a.config
  current := v.scope a.current
  enclosing := a.enclosing.map v.scope
  left := a.left.map fun l => ⟨l.parent, v.scope l.scope⟩
  entered := a.entered

/-- A scope edit that respects the veil. -/
abbrev Scoped {α : Type} (v : Veil) (x : Edit Scope α) : Prop := ∀ s, Respects v.scope x x s

/-! ### Edits of a scope -/

theorem respects_emit (i : Instruction) : v.Scoped (Scope.emit i) := by
  intro s
  refine .get_bind ?_
  show Respects v.scope _ (if s.ended then _ else _) s
  split
  · exact .throw_bind
  · exact .bind (.set rfl) fun _ _ _ => .pure _

theorem respects_emitOp (op : Opcode) : v.Scoped (Scope.emitOp op) := respects_emit _

theorem respects_emitUnsigned (op : Opcode) (n : Nat) : v.Scoped (Scope.emitUnsigned op n) :=
  fun _ => .bind (.ofExcept _) fun i t _ => respects_emit i t

theorem respects_emitPair (op : Opcode) (m n : Nat) : v.Scoped (Scope.emitPair op m n) :=
  fun _ => .bind (.ofExcept _) fun i t _ => respects_emit i t

theorem respects_onLabels {α : Type} (x : Edit Labels α) : v.Scoped (Scope.onLabels x) :=
  fun _ => .within rfl fun _ => rfl

theorem respects_emitJump (op : Opcode) (l : Label) : v.Scoped (Scope.emitJump op l) := fun s =>
  (respects_emitOp op s).bind fun _ t _ => (respects_onLabels _ t).bind fun _ _ _ => .pure _

theorem respects_placeLabel (l : Label) : v.Scoped (Scope.placeLabel l) := fun s =>
  .get_bind (respects_onLabels _ s)

theorem respects_receive : v.Scoped Scope.receive := fun _ => .modify rfl

theorem respects_discard : v.Scoped Scope.discard := by
  intro s
  refine .get_bind ?_
  show Respects v.scope _ (if s.endsInSpareDup then _ else _) s
  split
  · exact .set rfl
  · exact (respects_emitOp _ s).bind fun _ _ _ => .pure _

/-- A constant is looked up or added, and its index is found. -/
theorem respects_constant (x : Value) : v.Scoped (Scope.constant x) := fun _ =>
  .get_bind (.bind (.ofExcept _) fun _ _ h => by
    obtain ⟨-, rfl⟩ := ofExcept_eq_ok.mp h
    exact .bind (.set rfl) fun _ _ _ => .pure _)

theorem respects_nameConstant (name : String) : v.Scoped (Scope.nameConstant name) := fun _ =>
  .get_bind (.bind (.ofExcept _) fun _ _ h => by
    obtain ⟨-, rfl⟩ := ofExcept_eq_ok.mp h
    exact .bind (.set rfl) fun _ _ _ => .pure _)

theorem respects_loadConst (x : Value) : v.Scoped (Scope.loadConst x) := fun s =>
  (respects_constant x s).bind fun _ t _ => (respects_emitUnsigned _ _ t).bind fun _ _ _ => .pure _

theorem respects_emitNamed (op : Opcode) (name : String) : v.Scoped (Scope.emitNamed op name) :=
  fun s => (respects_nameConstant name s).bind fun _ t _ =>
    (respects_emitUnsigned _ _ t).bind fun _ _ _ => .pure _

theorem respects_record (change : Recorder → Recorder) : v.Scoped (Scope.record change) := by
  intro s
  show EStateM.Result.ok () { v.scope s with recorder := (v.recorder s.recorder).map change } = _
  rw [← v.recorder_map]
  rfl

theorem respects_declare (name : String) : v.Scoped (Scope.declare name) := by
  intro s
  refine .get_bind (.bind (.ofExcept _) fun found t h => ?_)
  obtain ⟨-, rfl⟩ := ofExcept_eq_ok.mp h
  obtain ⟨⟨slot, fresh⟩, locals⟩ := found
  refine .bind (.set rfl) fun _ u _ => ?_
  cases fresh with
  | true => exact (respects_record _ u).bind fun _ _ _ => .pure _
  | false => exact .pure _

theorem respects_declareAll (names : List String) : v.Scoped (declareAll names) := by
  induction names with
  | nil => exact fun _ => .pure ()
  | cons name names ih => exact fun s => (respects_declare name s).bind fun _ t _ => ih t

theorem respects_emitSlot (op : Opcode) (name : String) : v.Scoped (Scope.emitSlot op name) := by
  intro s
  refine .get_bind ?_
  have hlocals : (v.scope s).locals = s.locals := rfl
  simp only [hlocals]
  cases s.locals.lookup? name with
  | none => exact .throw _
  | some slot => exact (respects_emitUnsigned op slot s).bind fun _ _ _ => .pure _

theorem respects_enterBlock : v.Scoped Scope.enterBlock := fun _ => .modify rfl

theorem respects_leaveBlock : v.Scoped Scope.leaveBlock := by
  intro s
  refine .get_bind ?_
  have hblocks : (v.scope s).blocks = s.blocks := rfl
  simp only [hblocks]
  cases s.blocks with
  | nil => exact .throw _
  | cons marker blocks => exact .bind (.set rfl) fun _ t _ => respects_record _ t

theorem respects_protect : v.Scoped Scope.protect := fun _ => .modify rfl

theorem respects_reconcile : v.Scoped Scope.reconcile := by
  intro s
  refine .get_bind ?_
  have hcode : Respects v.scope (Scope.onCode s.labels.reconcile) (Scope.onCode s.labels.reconcile) s :=
    .within rfl fun _ => rfl
  show Respects v.scope _ (if s.blocks.isEmpty then _ else _) s
  split
  · exact hcode
  · exact .throw_bind

/-! ### Edits of an assembly -/

theorem respects_onCurrent {α : Type} {x : Edit Scope α} (h : v.Scoped x) (a : Assembler) :
    Respects v.assembler (Assembler.onCurrent x) (Assembler.onCurrent x) a := by
  obtain ⟨config, current, enclosing, left, entered⟩ := a
  have hcurrent : x (v.scope current) = through v.scope (x current) := h current
  unfold Respects
  simp only [assembler, Assembler.onCurrent, hcurrent]
  cases x current <;> rfl

/-- Names are found in the scopes around a unit by what a veil leaves as it is. -/
theorem findOuter_map (name : String) (up : Nat) (scopes : List Scope) :
    Assembler.findOuter name up (scopes.map v.scope) = Assembler.findOuter name up scopes := by
  induction scopes generalizing up with
  | nil => rfl
  | cons s scopes ih =>
    rw [List.map_cons, Assembler.findOuter, Assembler.findOuter, ih]
    rfl

theorem respects_resolve (name : String) (a : Assembler) :
    Respects v.assembler (Assembler.resolve name) (Assembler.resolve name) a := by
  refine .get_bind ?_
  have hlocals : (v.assembler a).current.locals = a.current.locals := rfl
  simp only [hlocals]
  cases a.current.locals.lookup? name with
  | some slot => exact .pure _
  | none =>
    show Respects v.assembler (Edit.ofExcept (Assembler.findOuter name 1 a.enclosing) >>= _)
      (Edit.ofExcept (Assembler.findOuter name 1 (a.enclosing.map v.scope)) >>= _) a
    rw [findOuter_map]
    refine .bind (.ofExcept _) fun found t h => ?_
    obtain ⟨-, rfl⟩ := ofExcept_eq_ok.mp h
    cases found with
    | none => exact .map (respects_onCurrent (respects_nameConstant name) t)
    | some o =>
      refine .bind (.ofExcept _) fun x u h => ?_
      obtain ⟨-, rfl⟩ := ofExcept_eq_ok.mp h
      exact .bind (.set rfl) fun _ _ _ => .pure _

theorem respects_loadName (name : String) (a : Assembler) :
    Respects v.assembler (Assembler.loadName name) (Assembler.loadName name) a := by
  refine (respects_resolve name a).bind fun place b _ => ?_
  cases place <;> exact (respects_onCurrent (respects_emitUnsigned _ _) b).bind fun _ _ _ => .pure _

theorem respects_storeName (name : String) (a : Assembler) :
    Respects v.assembler (Assembler.storeName name) (Assembler.storeName name) a := by
  refine (respects_resolve name a).bind fun place b _ => ?_
  cases place <;> exact (respects_onCurrent (respects_emitUnsigned _ _) b).bind fun _ _ _ => .pure _

/-- An indifferent step respects every veil. -/
theorem respects_step {x : Step} (hx : x.isIndifferent = true) (a : Assembler) :
    Respects v.assembler x.run x.run a := by
  cases x with
  | fail e => exact .throw e
  | markLine _ | unit _ _ _ _ => cases hx
  | op o => exact .ignore (respects_onCurrent (respects_emitOp o) a)
  | count o n => exact .ignore (respects_onCurrent (respects_emitUnsigned o n) a)
  | pair o m n => exact .ignore (respects_onCurrent (respects_emitPair o m n) a)
  | newLabel => exact .ignore (respects_onCurrent (respects_onLabels _) a)
  | jump o l => exact .ignore (respects_onCurrent (respects_emitJump o l) a)
  | place l => exact respects_onCurrent (respects_placeLabel l) a
  | receive => exact respects_onCurrent respects_receive a
  | discard => exact respects_onCurrent respects_discard a
  | loadConst x => exact respects_onCurrent (respects_loadConst x) a
  | named o name => exact respects_onCurrent (respects_emitNamed o name) a
  | declare name => exact .ignore (respects_onCurrent (respects_declare name) a)
  | slot o name => exact respects_onCurrent (respects_emitSlot o name) a
  | loadName name => exact respects_loadName name a
  | storeName name => exact respects_storeName name a
  | enterBlock => exact respects_onCurrent respects_enterBlock a
  | leaveBlock => exact respects_onCurrent respects_leaveBlock a
  | protect => exact respects_onCurrent respects_protect a

/-! ### Whole programs -/

/-- The veil leaves lines as they are, and a unit that begins or ends behind it is the veiled unit. -/
structure Whole (v : Veil) : Prop where
  lineMarkers : ∀ config, (v.config config).lineMarkers = config.lineMarkers
  lastLine : ∀ line, v.lastLine line = line
  entered : ∀ config, v.recorder (if config.debugInfo then some {} else none)
    = if (v.config config).debugInfo then some {} else none
  emptied : v.recorder none = none
  left : ∀ s : Scope, (v.scope s).toCodeObject = v.unit s.toCodeObject

namespace Whole

theorem scope_new (h : v.Whole) (n : Nat) (kind : ScopeKind) (signature : Signature)
    (config : Config) :
    v.scope (Scope.new n kind signature config.debugInfo)
      = Scope.new n kind signature (v.config config).debugInfo := by
  simp [scope, Scope.new, h.entered, h.lastLine]

theorem scope_emptied (h : v.Whole) (s : Scope) : (v.scope s).emptied = v.scope s.emptied := by
  simp [scope, Scope.emptied, h.emptied, h.lastLine]

theorem respects_markLine (h : v.Whole) (line : Nat) (a : Assembler) :
    Respects v.assembler (Assembler.markLine line) (Assembler.markLine line) a := by
  have hscope : v.Scoped (Scope.markLine line) := by
    intro s
    refine .get_bind ?_
    show Respects v.scope _ (if v.lastLine s.lastLine = some line then _ else _) s
    rw [h.lastLine]
    split
    · exact .pure ()
    · refine .bind (.set ?_) fun _ t _ => (respects_emitUnsigned _ _ t).bind fun _ _ _ => .pure _
      simp [scope, h.lastLine]
  refine .get_bind ?_
  show Respects v.assembler (if a.config.lineMarkers then _ else _)
    (if (v.config a.config).lineMarkers then _ else _) a
  rw [h.lineMarkers]
  split
  · exact respects_onCurrent hscope a
  · exact .pure ()

theorem respects_enterScope (h : v.Whole) (kind : ScopeKind) (signature : Signature)
    (a : Assembler) :
    Respects v.assembler (Assembler.enterScope kind signature)
      (Assembler.enterScope kind signature) a := by
  refine .get_bind (.bind (.set ?_) fun _ _ _ => .pure _)
  simp only [assembler, h.scope_new, List.map_cons]

/-- A unit that is attached behind the veil is the veiled unit. -/
theorem attached_eq (h : v.Whole) (relay : Outers.Relay) (a : Assembler) :
    (v.assembler a).attached relay = v.assembler (a.attached relay) := by
  obtain ⟨config, current, enclosing, left, entered⟩ := a
  cases enclosing with
  | nil => rfl
  | cons parent enclosing =>
    have hunit := h.left { current with outers := ⟨relay.settled⟩ }
    have hleft := h.scope_emptied { current with outers := ⟨relay.settled⟩ }
    simp only [assembler, List.map_cons, Assembler.attached]
    congr 1
    · simp only [scope, Array.map_push]
      rw [← hunit]
      rfl
    · rw [← hleft]
      rfl

theorem respects_leaveScope (h : v.Whole) (a : Assembler) :
    Respects v.assembler Assembler.leaveScope Assembler.leaveScope a := by
  refine .get_bind ?_
  obtain ⟨config, current, enclosing, left, entered⟩ := a
  cases enclosing with
  | nil => exact .throw _
  | cons parent enclosing =>
    have hrest : ∀ b : Assembler, Respects v.assembler
        (do
          Assembler.onCurrent Scope.reconcile
          let relay ← Edit.ofExcept (parent.outers.relay (← get).current.outers.descriptors)
          modify (·.attached relay)
          pure (⟨parent.children.size, relay.captures⟩ : Child))
        (do
          Assembler.onCurrent Scope.reconcile
          let relay ← Edit.ofExcept (parent.outers.relay (← get).current.outers.descriptors)
          modify (·.attached relay)
          pure (⟨(parent.children.map v.unit).size, relay.captures⟩ : Child)) b := by
      intro b
      refine (respects_onCurrent respects_reconcile b).bind fun _ c _ => .get_bind ?_
      refine .bind (.ofExcept _) fun relay d _ => .bind (.modify (h.attached_eq relay d))
        fun _ _ _ => ?_
      rw [Array.size_map]
      exact .pure _
    show Respects v.assembler (if parent.ended then _ else _) (if parent.ended then _ else _) _
    split
    · exact .throw_bind
    · exact hrest _

theorem respects_emitCaptures (captures : List Capture) :
    v.Scoped (Assembler.emitCaptures captures) := by
  induction captures with
  | nil => exact fun _ => .pure ()
  | cons c cs ih =>
    exact fun s => .bind (.ofExcept _) fun i t _ => (respects_emit i t).bind fun _ u _ => ih u

theorem respects_emitChild (op : Opcode) (child : Child) (a : Assembler) :
    Respects v.assembler (Assembler.emitChild op child) (Assembler.emitChild op child) a :=
  respects_onCurrent (fun s => (respects_emitUnsigned op _ s).bind fun _ t _ =>
    respects_emitCaptures _ t) a

mutual

/-- Every step respects the veil. -/
theorem respects_run (h : v.Whole) (x : Step) (a : Assembler) :
    Respects v.assembler x.run x.run a := by
  cases x with
  | markLine line => exact h.respects_markLine line a
  | unit op kind signature body =>
    exact (h.respects_enterScope kind signature a).bind fun _ b _ =>
      (respects_onCurrent (respects_declareAll _) b).bind fun _ c _ =>
      (h.respects_runAll body c).bind fun _ d _ =>
      (h.respects_leaveScope d).bind fun child e _ => respects_emitChild op child e
  | _ => exact respects_step rfl a

/-- Every script respects the veil. -/
theorem respects_runAll (h : v.Whole) (xs : Script) (a : Assembler) :
    Respects v.assembler (Step.runAll xs) (Step.runAll xs) a := by
  cases xs with
  | nil => exact .pure ()
  | cons x xs => exact (h.respects_run x a).bind fun _ b _ => h.respects_runAll xs b

end

/-- The code object that the outermost scope becomes behind the veil is the veiled one. -/
theorem respects_lower (h : v.Whole) (a : Assembler) :
    Respects v.assembler (v.unit <$> Assembler.onCurrent Scope.lower)
      (Assembler.onCurrent Scope.lower) a := by
  show EStateM.Result.ok (v.scope a.current).toCodeObject
      { v.assembler a with current := (v.scope a.current).emptied }
    = .ok (v.unit a.current.toCodeObject)
      { v.assembler a with current := v.scope a.current.emptied }
  rw [h.left, h.scope_emptied]

theorem respects_finish (h : v.Whole) (a : Assembler) :
    Respects v.assembler (v.unit <$> Assembler.finish) Assembler.finish a := by
  unfold Assembler.finish
  rw [map_bind]
  refine .get_bind ?_
  have hempty : (v.assembler a).enclosing.isEmpty = a.enclosing.isEmpty := List.isEmpty_map
  rw [hempty]
  split
  · rw [map_bind]
    refine (respects_onCurrent respects_reconcile a).bind fun _ b _ => ?_
    rw [map_bind]
    refine .get_bind ?_
    show Respects v.assembler (v.unit <$> if b.current.outers.descriptors.isEmpty then _ else _)
      (if b.current.outers.descriptors.isEmpty then _ else _) b
    split
    · exact h.respects_lower b
    · rw [map_bind]
      exact .throw_bind
  · rw [map_bind]
    exact .throw_bind

/-- A script is assembled behind the veil to the veiled code object, or it fails in the same way. -/
theorem respects_assemble (h : v.Whole) (xs : Script) (a : Assembler) :
    Respects v.assembler (v.unit <$> assemble xs) (assemble xs) a := by
  unfold assemble
  rw [map_bind]
  exact (h.respects_runAll xs a).bind fun _ b _ => h.respects_finish b

end Whole

end Veil

end StackCode
