import CollectionDelta.Bytes
import Mathlib.Data.List.Basic

/-!
Programs that give out bytes, and a limit to their number.

* `Capping`: how a limit shows in programs of one kind.
* `Capping.Obeys`: what a program gives out is added to what was given out before, and a greater
  limit makes no difference unless the program was stopped.
* `Obeys.cut`: the step that gives out bytes and is stopped at the limit.
* `Obeys.of_blind`, `pure`, `get`, `modify`, `throw`, `bind`, `ite`, `read`: all other parts that
  programs are made of.
* `Obeys.ok_of_le`, `Obeys.ok_or_stops`: a program that comes to its end under one limit, under a
  greater one and under a smaller one.
-/

namespace CollectionDelta

/-- How a limit shows: the environment that tells it to a program, the bytes that a state has given
out, and the errors. -/
structure Capping (ρ σ ε : Type) where
  env : Nat → ρ
  out : σ → Bytes
  /-- What an error says about the limit is true. -/
  Halts : Nat → ε → Prop
  /-- The error stopped a program at the limit, on the way to these bytes. -/
  Stops : Nat → ε → Bytes → Prop
  stops_of_prefix : ∀ {limit : Nat} {e : ε} {b b' : Bytes}, b <+: b' → Stops limit e b →
    Stops limit e b'

namespace Capping

variable {ρ σ ε α β : Type}

/-- From a limit to a greater one, the outcome of a program stays the same; or it was an error that
stopped the program, and all that it gives out otherwise lies beyond. -/
structure Obeys (C : Capping ρ σ ε) (p : ReaderT ρ (StateT σ (Except ε)) α) : Prop where
  grows : ∀ {limit : Nat} {s t : σ} {a : α}, p (C.env limit) s = .ok (a, t) → C.out s <+: C.out t
  halts : ∀ {limit : Nat} {s : σ} {e : ε}, p (C.env limit) s = .error e → C.Halts limit e
  agrees : ∀ {limit limit' : Nat}, limit ≤ limit' → ∀ s,
    p (C.env limit') s = p (C.env limit) s ∨ ∃ e, p (C.env limit) s = .error e ∧
      ∀ a t, p (C.env limit') s = .ok (a, t) → C.Stops limit e (C.out t)

namespace Obeys

variable {C : Capping ρ σ ε} {p q : ReaderT ρ (StateT σ (Except ε)) α}
  {k : α → ReaderT ρ (StateT σ (Except ε)) β}

/-- A program that does not look at the limit. -/
theorem of_blind (h : ∀ limit limit', p (C.env limit) = p (C.env limit'))
    (hgrows : ∀ {limit : Nat} {s t : σ} {a : α}, p (C.env limit) s = .ok (a, t) →
      C.out s <+: C.out t)
    (hhalts : ∀ {limit : Nat} {s : σ} {e : ε}, p (C.env limit) s = .error e → C.Halts limit e) :
    C.Obeys p :=
  ⟨hgrows, hhalts, fun _ s => .inl (congrFun (h _ _) s)⟩

theorem pure (a : α) : C.Obeys (Pure.pure a) :=
  .of_blind (fun _ _ => rfl) (fun h => by cases h; exact List.prefix_rfl) nofun

theorem get : C.Obeys MonadState.get :=
  .of_blind (fun _ _ => rfl) (fun h => by cases h; exact List.prefix_rfl) nofun

theorem modify {f : σ → σ} (h : ∀ s, C.out s <+: C.out (f s)) :
    C.Obeys (modify f : ReaderT ρ (StateT σ (Except ε)) PUnit) :=
  .of_blind (fun _ _ => rfl) (fun hs => by cases hs; exact h _) nofun

theorem throw {e : ε} (h : ∀ limit, C.Halts limit e) :
    C.Obeys (throw e : ReaderT ρ (StateT σ (Except ε)) α) :=
  .of_blind (fun _ _ => rfl) nofun fun he => by cases he; exact h _

theorem bind_apply (p : ReaderT ρ (StateT σ (Except ε)) α)
    (k : α → ReaderT ρ (StateT σ (Except ε)) β) (r : ρ) (s : σ) :
    (p >>= k) r s = match p r s with
      | .ok (a, t) => k a r t
      | .error e => .error e := by
  change (Except.bind (p r s) fun x => k x.1 r x.2) = _
  cases p r s <;> rfl

theorem bind (hp : C.Obeys p) (hk : ∀ a, C.Obeys (k a)) : C.Obeys (p >>= k) where
  grows {limit s u b} h := by
    rw [bind_apply] at h
    split at h
    · next a t ha => exact (hp.grows ha).trans ((hk a).grows h)
    · cases h
  halts {limit s e} h := by
    rw [bind_apply] at h
    split at h
    · next a t _ => exact (hk a).halts h
    · next he =>
      cases h
      exact hp.halts he
  agrees {limit limit'} hle s := by
    rw [bind_apply, bind_apply]
    rcases hp.agrees hle s with heq | ⟨e, he, hstops⟩
    · rw [heq]
      split
      · next a t _ => exact (hk a).agrees hle t
      · exact .inl rfl
    · rw [he]
      refine .inr ⟨e, rfl, fun b u h => ?_⟩
      -- the program that was stopped gives out more before it ends
      split at h
      · next a t ha => exact C.stops_of_prefix ((hk a).grows h) (hstops a t ha)
      · cases h

theorem ite {c : Prop} [Decidable c] (hp : C.Obeys p) (hq : C.Obeys q) :
    C.Obeys (if c then p else q) := by
  split
  · exact hp
  · exact hq

/-- A step that the limit may stop, after it has given out bytes; a greater limit stops it less. -/
theorem cut {stopped : Nat → σ → Prop} [∀ limit s, Decidable (stopped limit s)] {f : σ → σ}
    {e : σ → ε} (a : α)
    (h : ∀ limit s, p (C.env limit) s = if stopped limit s then .error (e s) else .ok (a, f s))
    (hout : ∀ s, C.out s <+: C.out (f s))
    (hle : ∀ {limit limit' : Nat} {s : σ}, limit ≤ limit' → stopped limit' s → stopped limit s)
    (hstops : ∀ {limit : Nat} {s : σ}, stopped limit s →
      C.Halts limit (e s) ∧ C.Stops limit (e s) (C.out (f s))) : C.Obeys p where
  grows {limit s t b} hok := by
    rw [h] at hok
    split at hok
    · cases hok
    · cases hok
      exact hout s
  halts {limit s e} herr := by
    rw [h] at herr
    split at herr
    · next hstopped =>
      cases herr
      exact (hstops hstopped).1
    · cases herr
  agrees {limit limit'} hlimit s := by
    rw [h, h]
    by_cases hstopped : stopped limit s
    · rw [if_pos hstopped]
      refine .inr ⟨_, rfl, fun b t hok => ?_⟩
      split at hok
      · cases hok
      · cases hok
        exact (hstops hstopped).2
    · rw [if_neg hstopped, if_neg fun hs => hstopped (hle hlimit hs)]
      exact .inl rfl

/-- What is read of the environment may be anything but the limit. -/
theorem read {k : ρ → ReaderT ρ (StateT σ (Except ε)) β}
    (h : ∀ limit limit', k (C.env limit) = k (C.env limit'))
    (hk : ∀ limit, C.Obeys (k (C.env limit))) : C.Obeys (MonadReader.read >>= k) where
  grows {limit s t b} hb := (hk limit).grows hb
  halts {limit s e} he := (hk limit).halts he
  agrees {limit limit'} hle s := by
    change k (C.env limit') (C.env limit') s = k (C.env limit) (C.env limit) s ∨
      ∃ e, k (C.env limit) (C.env limit) s = .error e ∧
        ∀ b t, k (C.env limit') (C.env limit') s = .ok (b, t) → C.Stops limit e (C.out t)
    rw [h limit' limit]
    exact (hk limit).agrees hle s

/-! ## Programs that come to their end -/

variable {limit limit' : Nat} {s t : σ} {a : α}

theorem ok_of_le (hp : C.Obeys p) (hle : limit ≤ limit') (h : p (C.env limit) s = .ok (a, t)) :
    p (C.env limit') s = .ok (a, t) := by
  rcases hp.agrees hle s with heq | ⟨e, he, -⟩
  · exact heq.trans h
  · cases h.symm.trans he

theorem ok_or_stops (hp : C.Obeys p) (hle : limit ≤ limit')
    (h : p (C.env limit') s = .ok (a, t)) : p (C.env limit) s = .ok (a, t) ∨
      ∃ e, p (C.env limit) s = .error e ∧ C.Halts limit e ∧ C.Stops limit e (C.out t) := by
  rcases hp.agrees hle s with heq | ⟨e, he, hstops⟩
  · exact .inl (heq.symm.trans h)
  · exact .inr ⟨e, he, hp.halts he, hstops a t h⟩

end Obeys
end Capping
end CollectionDelta
