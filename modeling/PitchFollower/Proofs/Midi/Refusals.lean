import PitchFollower.Proofs.Midi.Delivery

/-!
# Refused events

An outlet may refuse an event for any reason that its own past gives.  This
module keeps a transcript of all offers with their refusals, which changes
nothing for the outlet, and compares two runs of one emitter over different
outlets: the emitters go through the same states and offer the same events, and
a call reports the first refusal among its own offers.
-/

namespace PitchFollower.Midi

/-! ## Transcripts -/

/-- An event that has been offered, and why it was refused, if it was. -/
structure Offer (ε : Type) where
  event : Event
  refusal : Option ε

/-- An outlet with all offers made to it, the oldest first. -/
structure Transcribed (σ ε : Type) where
  outlet : σ
  offers : List (Offer ε)

section Outlets

variable {σ ε : Type} [Outlet σ ε]

instance : Outlet (Transcribed σ ε) ε where
  send t event :=
    let (outlet, refusal) := Outlet.send t.outlet event
    (⟨outlet, t.offers ++ [⟨event, refusal⟩]⟩, refusal)

/-- What a transcript says about one list of events: all of them were offered,
in order, and the outlet behind it reported the first refusal. -/
structure TellsOf (before : Transcribed σ ε) (events : List Event)
    (offers : List (Offer ε)) (answer : Transcribed σ ε × Option ε) : Prop where
  offers_eq : answer.1.offers = before.offers ++ offers
  events_eq : offers.map Offer.event = events
  refusal_eq : answer.2 = offers.findSome? Offer.refusal
  outlet_eq : (answer.1.outlet, answer.2) = Outlet.sendAll before.outlet events

theorem exists_offers_sendAll (t : Transcribed σ ε) (events : List Event) :
    ∃ offers, TellsOf t events offers (Outlet.sendAll t events) := by
  induction events generalizing t with
  | nil => exact ⟨[], (List.append_nil _).symm, rfl, rfl, rfl⟩
  | cons event rest ih =>
    obtain ⟨offers, hoffers, hevents, hrefusal, houtlet⟩ :=
      ih (Outlet.send t event).1
    refine ⟨⟨event, (Outlet.send t.outlet event).2⟩ :: offers, ?_, ?_, ?_, ?_⟩
    · calc (Outlet.sendAll t (event :: rest)).1.offers
          = (Outlet.sendAll (Outlet.send t event).1 rest).1.offers := rfl
        _ = t.offers ++ [⟨event, (Outlet.send t.outlet event).2⟩] ++ offers :=
          hoffers
        _ = t.offers ++ ⟨event, (Outlet.send t.outlet event).2⟩ :: offers := by
          rw [List.append_assoc, List.singleton_append]
    · rw [List.map_cons, hevents]
    · calc (Outlet.sendAll t (event :: rest)).2
          =
            (Outlet.send t.outlet event).2.or
              (Outlet.sendAll (Outlet.send t event).1 rest).2 := rfl
        _ =
          (Outlet.send t.outlet event).2.or
            (offers.findSome? Offer.refusal) := by rw [hrefusal]
        _ = _ := by
          rw [List.findSome?_cons]
          cases (Outlet.send t.outlet event).2 <;> rfl
    · rw [Prod.ext_iff] at houtlet ⊢
      exact ⟨houtlet.1,
        congrArg ((Outlet.send t.outlet event).2.or ·) houtlet.2⟩

end Outlets

/-! ## Calls -/

namespace Transmitter

variable {σ ε : Type} [Outlet σ ε]

/-- An emitter in front of an outlet that has not been offered anything. -/
def transcribed (e : Emitter) (outlet : σ) : Transmitter (Transcribed σ ε) :=
  ⟨e, ⟨outlet, []⟩⟩

/-- The transmitter without the transcript. -/
def untold (t : Transmitter (Transcribed σ ε)) : Transmitter σ :=
  ⟨t.emitter, t.outlet.outlet⟩

theorem exists_offers_answer (t : Transmitter (Transcribed σ ε)) (call : Call) :
    ∃ offers, TellsOf t.outlet (t.emitter.answer call).2 offers
      ((t.answer call).1.outlet, (t.answer call).2) := by
  rw [answer_eq_deliver]
  exact exists_offers_sendAll t.outlet (t.emitter.answer call).2

/-- Keeping a transcript changes neither the outlet nor what a call reports. -/
theorem untold_answer (t : Transmitter (Transcribed σ ε)) (call : Call) :
    ((t.answer call).1.untold, (t.answer call).2) = t.untold.answer call := by
  obtain ⟨offers, h⟩ := exists_offers_sendAll t.outlet (t.emitter.answer call).2
  have houtlet := Prod.ext_iff.mp h.outlet_eq
  rw [answer_eq_deliver, answer_eq_deliver, Prod.ext_iff]
  exact ⟨congrArg (Transmitter.mk (t.emitter.answer call).1) houtlet.1,
    houtlet.2⟩

theorem untold_after (t : Transmitter (Transcribed σ ε)) (past : List Call) :
    (t.after past).untold = t.untold.after past := by
  induction past with
  | nil => rfl
  | cons call past ih =>
    rw [after, after, ← ih, ← untold_answer]

/-- The events offered so far are those that the emitter has listed. -/
theorem events_after_cons (t : Transmitter (Transcribed σ ε)) (call : Call)
    (past : List Call) :
    (t.after (call :: past)).outlet.offers.map Offer.event =
      (t.after past).outlet.offers.map Offer.event ++
      ((t.emitter.after past).answer call).2 := by
  obtain ⟨offers, h⟩ := (t.after past).exists_offers_answer call
  rw [after, h.offers_eq, List.map_append, h.events_eq, emitter_after]

end Transmitter

/-- What an outlet does with events has no influence on an emitter.  Two runs of
the same calls over outlets of any two kinds go through the same states and
offer the same events in the same order.  Each call offers all its events, it
reports a refusal if and only if one of them was refused, and then the first
one.  That is said of the transmitter itself, which the transcript follows. -/
theorem emitter_independent_of_outlet {σ₁ ε₁ σ₂ ε₂ : Type} [Outlet σ₁ ε₁]
    [Outlet σ₂ ε₂] (e : Emitter) (outlet₁ : σ₁) (outlet₂ : σ₂)
    (past : List Call) :
    let t₁ :=
      (Transmitter.transcribed e outlet₁ :
        Transmitter (Transcribed σ₁ ε₁)).after past
    let t₂ :=
      (Transmitter.transcribed e outlet₂ :
        Transmitter (Transcribed σ₂ ε₂)).after past
    let s₁ := (Transmitter.mk e outlet₁).after past
    t₁.emitter = t₂.emitter ∧
      t₁.outlet.offers.map Offer.event = t₂.outlet.offers.map Offer.event ∧
      t₁.untold = s₁ ∧
      ∀ call, ∃ offers,
        (t₁.answer call).1.outlet.offers = t₁.outlet.offers ++ offers ∧
          offers.map Offer.event = (t₂.emitter.answer call).2 ∧
          (s₁.answer call).2 = offers.findSome? Offer.refusal ∧
          ((s₁.answer call).2.isSome ↔
            ∃ offer ∈ offers, offer.refusal.isSome) := by
  intro t₁ t₂ s₁
  have hemitter : t₁.emitter = t₂.emitter := by
    rw [Transmitter.emitter_after, Transmitter.emitter_after]
    rfl
  have huntold : t₁.untold = s₁ := Transmitter.untold_after _ past
  refine ⟨hemitter, ?_, huntold, fun call => ?_⟩
  · clear hemitter huntold
    induction past with
    | nil => rfl
    | cons call past ih =>
      rw [Transmitter.events_after_cons, Transmitter.events_after_cons, ih]
      rfl
  · obtain ⟨offers, h⟩ := t₁.exists_offers_answer call
    have hrefusal : (s₁.answer call).2 = offers.findSome? Offer.refusal := by
      rw [← huntold, ← Transmitter.untold_answer]
      exact h.refusal_eq
    refine ⟨offers, h.offers_eq, ?_, hrefusal, ?_⟩
    · rw [h.events_eq, hemitter]
    · rw [hrefusal, List.findSome?_isSome_iff]

end PitchFollower.Midi
