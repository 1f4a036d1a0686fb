import RecordCodec.Proofs.Invariant

/-!
# The moments of a traversal

A history leaves one state behind, but a traversal is in many states on the way there: between two
leaves of a record, before a trailer is checked, after an error was taken away in the middle of a
sequence. Whatever a record does, it can do no more to a traversal than call the codec and change
the stored error. So the moments of a traversal are the states that come about in these two ways,
and what holds of all moments holds in the middle of every visit of every record.

Some codecs are safe only when leaves are visited at the right time, as a decoder is that has
checked its trailer. `fit` says when that is.

## Main definitions

* `Codec.Moment` — a state that a traversal may be in.

## Main results

* `Codec.Moment.invariant` — what the acts of a codec keep holds at all moments.
* `Codec.Moment.keeps` — where leaves may be visited, and still may after every act of the codec,
  records lead from moments to moments.
* `Codec.Moment.of_history` — so do histories, where leaves may be visited always.
-/

namespace RecordCodec

variable {σ : Type} [Codec σ]

/-- A state that a traversal may be in: it was started so, or the codec has led there from another
moment, or it is another moment with another error stored. -/
inductive Codec.Moment (fit : Traversal σ → Prop) (start : Traversal σ) : Traversal σ → Prop
  | start : Moment fit start start
  | visit (kind : Kind) (name : String) (v : kind.Value) {t : Traversal σ} :
    Moment fit start t → fit t → Moment fit start (Codec.visit kind name v t).state
  | close {t : Traversal σ} :
    Moment fit start t → Moment fit start ((Codec.close : Act σ Unit) t).state
  | openRun {t : Traversal σ} :
    Moment fit start t → Moment fit start ((Codec.openRun : Act σ Unit) t).state
  | closeRun {t : Traversal σ} :
    Moment fit start t → Moment fit start ((Codec.closeRun : Act σ Unit) t).state
  | rewind {t : Traversal σ} :
    Moment fit start t → Moment fit start { t with store := Codec.rewind t.store }
  | error {t : Traversal σ} (e : Option Error) :
    Moment fit start t → Moment fit start { t with error := e }

namespace Codec.Moment

variable {fit : Traversal σ → Prop} {start : Traversal σ}

theorem ignoresError : IgnoresError (Moment fit start) :=
  fun _ ht e => ht.error e

/-- **What the acts of a codec keep holds at all moments.** -/
theorem invariant {P : Traversal σ → Prop} (hP : Codec.Keeps P) (hstart : P start)
    {t : Traversal σ} (ht : Moment fit start t) : P t := by
  induction ht with
  | start => exact hstart
  | visit kind name v _ _ ih => exact hP.visit kind name v _ ih
  | close _ ih => exact hP.close _ ih
  | openRun _ ih => exact hP.openRun _ ih
  | closeRun _ ih => exact hP.closeRun _ ih
  | rewind _ ih => exact hP.rewind _ ih
  | error e _ ih => exact hP.ignores _ ih e

/-- The moments at which leaves may be visited, if no act of the codec puts an end to that. -/
theorem keeps (hfit : Codec.Keeps fit) : Codec.Keeps fun t => Moment fit start t ∧ fit t where
  ignores t ht e := ⟨ht.1.error e, hfit.ignores t ht.2 e⟩
  visit kind name v t ht := ⟨ht.1.visit kind name v ht.2, hfit.visit kind name v t ht.2⟩
  close t ht := ⟨ht.1.close, hfit.close t ht.2⟩
  openRun t ht := ⟨ht.1.openRun, hfit.openRun t ht.2⟩
  closeRun t ht := ⟨ht.1.closeRun, hfit.closeRun t ht.2⟩
  rewind t ht := ⟨ht.1.rewind, hfit.rewind t ht.2⟩

/-- Where leaves may be visited always, histories lead to moments. -/
theorem of_history (hfit : ∀ t, fit t) (steps : List Step) :
    Moment fit start (performAll steps start).2.1 := by
  have hkeeps : Codec.Keeps fit :=
    ⟨fun _ _ _ => hfit _, fun _ _ _ _ _ => hfit _, fun _ _ => hfit _, fun _ _ => hfit _,
      fun _ _ => hfit _, fun _ _ => hfit _⟩
  exact (performAll_keeps (keeps hkeeps) steps ⟨.start, hfit start⟩).1

end Codec.Moment

end RecordCodec
