import ForthElf.Proofs.Actions

/-!
# Actions that only report what they do

The number of tokens met and the log are written and never read, and code never shrinks.

* `Compiler.bare s` — the state `s` without the number of tokens and the log;
* `Compiler.Regular action` — from states that differ in these only, `action` does the same, and it does not shrink
  the code;
* `Compiler.regular_compileTokens` — **compiling is regular**, from the basic actions up to lists of tokens.
-/

namespace ForthElf

namespace Compiler

/-- The state without what is only reported: the number of tokens and the log. -/
def bare (s : Compiler) : Compiler :=
  { s with stats := { s.stats with tokens := 0 }, log := #[] }

/-- A result without what its state only reports. -/
def bareResult {α : Type} : EStateM.Result Error Compiler α → EStateM.Result Error Compiler α
  | .ok a s => .ok a s.bare
  | .error e s => .error e s.bare

/-- An action that neither reads the number of tokens and the log nor shrinks the code. -/
structure Regular {α : Type} (m : Compile α) : Prop where
  uniform : ∀ {s t : Compiler}, s.bare = t.bare → bareResult (m s) = bareResult (m t)
  grows : ∀ s : Compiler, s.offset ≤ (stateOf (m s)).offset

theorem toEmitter_eq_of_bare {s t : Compiler} (h : s.bare = t.bare) : s.toEmitter = t.toEmitter := by
  have hemitter : s.bare.toEmitter = t.bare.toEmitter := by rw [h]
  exact hemitter

/-! ### Basic actions -/

section Basic

variable {α β : Type} {m : Compile α}

theorem regular_pure (a : α) : Regular (pure a : Compile α) :=
  ⟨fun h => congrArg (EStateM.Result.ok a) h, fun _ => Nat.le_refl _⟩

theorem regular_throw (e : Error) : Regular (throw e : Compile α) :=
  ⟨fun h => congrArg (EStateM.Result.error e) h, fun _ => Nat.le_refl _⟩

/-- From states that differ in the reports only, an action succeeds in both or fails in both. -/
theorem Regular.cases (hm : Regular m) {s t : Compiler} (hst : s.bare = t.bare) :
    (∃ a s' t', m s = .ok a s' ∧ m t = .ok a t' ∧ s'.bare = t'.bare) ∨
      ∃ e s' t', m s = .error e s' ∧ m t = .error e t' ∧ s'.bare = t'.bare := by
  have h := hm.uniform hst
  cases hs : m s <;> cases ht : m t <;> rw [hs, ht] at h
  case ok.ok a s' b t' =>
    obtain ⟨rfl, hbare⟩ : a = b ∧ s'.bare = t'.bare := EStateM.Result.ok.inj h
    exact .inl ⟨a, s', t', rfl, rfl, hbare⟩
  case error.error e s' f t' =>
    obtain ⟨rfl, hbare⟩ : e = f ∧ s'.bare = t'.bare := EStateM.Result.error.inj h
    exact .inr ⟨e, s', t', rfl, rfl, hbare⟩
  all_goals cases h

theorem Regular.bind {f : α → Compile β} (hm : Regular m) (hf : ∀ a, Regular (f a)) : Regular (m >>= f) := by
  constructor
  · intro s t hst
    show bareResult (EStateM.bind m f s) = bareResult (EStateM.bind m f t)
    unfold EStateM.bind
    rcases hm.cases hst with ⟨a, s', t', hs, ht, hbare⟩ | ⟨e, s', t', hs, ht, hbare⟩ <;> rw [hs, ht]
    · exact (hf a).uniform hbare
    · exact congrArg (EStateM.Result.error e) hbare
  · intro s
    have h := hm.grows s
    show s.offset ≤ (stateOf (EStateM.bind m f s)).offset
    unfold EStateM.bind
    cases hs : m s <;> rw [hs] at h
    case ok a s' => exact Nat.le_trans h ((hf a).grows s')
    case error => exact h

/-- An action that looks at the state looks at nothing else than at what is left without the reports. -/
theorem regular_get_bind {f : Compiler → Compile β} (hbare : ∀ s, f s = f s.bare) (hf : ∀ s, Regular (f s)) :
    Regular (get >>= f) := by
  refine ⟨fun {s t} hst => ?_, fun s => (hf s).grows s⟩
  show bareResult (f s s) = bareResult (f t t)
  rw [hbare s, hst, ← hbare t]
  exact (hf t).uniform hst

theorem regular_modify {change : Compiler → Compiler} (hbare : ∀ s, (change s).bare = (change s.bare).bare)
    (hgrows : ∀ s, s.offset ≤ (change s).offset) : Regular (modify change : Compile PUnit) := by
  refine ⟨fun {s t} hst => ?_, hgrows⟩
  show EStateM.Result.ok _ (change s).bare = EStateM.Result.ok _ (change t).bare
  rw [hbare s, hst, ← hbare t]

theorem regular_note (event : Event) : Regular (note event) :=
  regular_modify (fun _ => rfl) fun _ => Nat.le_refl _

theorem regular_count {change : Statistics → Statistics}
    (h : ∀ s, { change s with tokens := 0 } = { change { s with tokens := 0 } with tokens := 0 }) :
    Regular (count change) :=
  regular_modify (fun s => congrArg (fun stats => { s with stats, log := #[] }) (h s.stats)) fun _ => Nat.le_refl _

theorem regular_require (result : Except Error α) : Regular (require result) := by
  cases result with
  | ok a => exact regular_pure a
  | error e => exact regular_throw e

/-! ### Emitting -/

theorem regular_emitting {change : Emitter → Emitter} (h : ∀ e, e.offset ≤ (change e).offset) :
    Regular (emitting change) :=
  regular_modify (fun _ => rfl) fun s => h s.toEmitter

theorem regular_emitter {action : Emit α} (h : ∀ e, e.offset ≤ (Emitter.endOf (action e)).offset) :
    Regular (emitter action) := by
  constructor
  · intro s t hst
    have hwith : ∀ e : Emitter, { s with toEmitter := e }.bare = { t with toEmitter := e }.bare :=
      fun e => congrArg (fun u : Compiler => { u with toEmitter := e }) hst
    unfold emitter
    rw [toEmitter_eq_of_bare hst]
    cases action t.toEmitter with
    | ok a e => exact congrArg (EStateM.Result.ok a) (hwith e)
    | error error e => exact congrArg (EStateM.Result.error error) (hwith e)
  · intro s
    have hs := h s.toEmitter
    unfold emitter
    cases haction : action s.toEmitter <;> rw [haction] at hs <;> exact hs

end Basic

/-- **Regular actions are closed.** -/
theorem closed_regular : Closed Regular where
  pure := regular_pure
  throw {_ e} _ := regular_throw e
  bind := Regular.bind
  get_bind hhide hf := regular_get_bind (fun s => (hhide s).trans (hhide s.bare).symm) hf
  note := regular_note
  count := regular_count
  book {change} hhide hcode := by
    refine regular_modify (fun s => ?_) fun s => Nat.le_of_eq (congrArg CodeBuffer.offset (hcode s).symm)
    -- a change that ignores what is hidden leaves it alone
    let own : Hidden := ⟨s.stats.tokens, s.log, s.options.forwardRefs, s.forward.headers⟩
    have hkept : change s = (change s).hide own := hhide s own
    have hbare : change s.bare = (change s).hide { own with tokens := 0, log := #[] } :=
      hhide s { own with tokens := 0, log := #[] }
    rw [hbare, hkept]
    rfl
  emitting := regular_emitting
  emitter h := regular_emitter h.grows

/-! ### Items -/

theorem regular_compileWord (token : Token) (index : Nat) : Regular (compileWord token index) := by
  unfold compileWord
  cases Primitive.lookup? token.text with
  | some p => exact closed_regular.compilePrimitive p
  | none =>
    refine regular_get_bind (fun _ => rfl) fun s => ?_
    cases s.dictionary.find? token.text with
    | some entry => exact closed_regular.compileMeaning entry.meaning
    | none =>
      exact closed_regular.ite (closed_regular.compileForwardCall token)
        (closed_regular.ite (closed_regular.skipWord token) (regular_throw _))

theorem regular_forM (items : List Item) : Regular (items.forM compileItem) :=
  closed_regular.forM_compileItem items regular_compileWord

/-- **Compiling is regular.** -/
theorem regular_compileTokens (tokens : List Token) : Regular (compileTokens tokens) := by
  refine .bind (regular_modify (fun s => ?_) fun s => ?_) fun _ => ?_
  · show Compiler.bare (if s.options.forwardRefs then _ else _) = Compiler.bare (if s.options.forwardRefs then _ else _)
    split <;> rfl
  · show s.offset ≤ Emitter.offset (Compiler.toEmitter (if s.options.forwardRefs then _ else _))
    split <;> exact Nat.le_refl _
  · rw [compileFrom_eq_forM]
    exact regular_forM _

end Compiler

end ForthElf
