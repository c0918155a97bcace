import Adnl.Proofs.History.Window

/-! # Which numbers a receiving history accepts

The decision depends only on the set of numbers accepted since the last reset: zero is refused,
each number is accepted once, and a number whose half lies more than one half below that of the
highest is too old.
-/
namespace Adnl

namespace History

/-- A receiving history that has accepted exactly the numbers in the list since its last reset. -/
structure Reflects (h : History) (seen : List UInt64) : Prop where
  window : ∃ w, h.window = some w ∧ w.Reflects seen
  last_eq : h.last = highest seen

def Refuses (h : History) (n : UInt64) : Prop := (h.deliver n).1 = false

variable {h : History} {seen : List UInt64} {n : UInt64}

/-- A history that refuses a number is left as it was, marks included. -/
theorem deliver_eq_of_refuses (hn : h.Refuses n) : h.deliver n = (false, h) := by
  rcases h with ⟨window, last⟩
  cases window with
  | none => cases hn
  | some w =>
    rcases hi : w.insert n with ⟨accepted, w'⟩
    cases accepted with
    | false =>
      have := Window.insert_eq_of_false (w := w) (n := n) (by rw [hi])
      rw [hi, Prod.mk.injEq] at this
      simp [deliver, hi, this.2]
    | true => simp [Refuses, deliver, hi] at hn

theorem deliver_ne_of_not_refuses (hw : h.window.isSome) (hn : ¬ h.Refuses n) :
    (h.deliver n).2 ≠ h := by
  rcases h with ⟨window, last⟩
  cases window with
  | none => cases hw
  | some w =>
    rcases hi : w.insert n with ⟨accepted, w'⟩
    cases accepted with
    | false => simp [Refuses, deliver, hi] at hn
    | true =>
      have := Window.insert_ne_of_true (w := w) (n := n) (by rw [hi])
      rw [hi] at this
      simp only [deliver, hi, ne_eq, mk.injEq, Option.some_inj]
      exact fun heq => this heq.1

theorem reflects_receiver : receiver.Reflects [] := ⟨⟨_, rfl, Window.reflects_fresh⟩, rfl⟩

namespace Reflects

theorem reset (hr : h.Reflects seen) : h.reset.Reflects [] := by
  obtain ⟨w, hw, -⟩ := hr.window
  exact ⟨⟨.fresh, by simp [History.reset, hw], Window.reflects_fresh⟩, rfl⟩

theorem not_refuses_iff (hr : h.Reflects seen) : ¬ h.Refuses n ↔ Admissible seen n := by
  obtain ⟨w, hw, hseen⟩ := hr.window
  rw [← hseen.insert_iff]
  rcases hi : w.insert n with ⟨accepted, w'⟩
  cases accepted <;> simp [Refuses, deliver, hw, hi]

theorem deliver (hr : h.Reflects seen) (hn : ¬ h.Refuses n) :
    (h.deliver n).2.Reflects (n :: seen) := by
  obtain ⟨w, hw, hseen⟩ := hr.window
  rcases hi : w.insert n with ⟨accepted, w'⟩
  cases accepted with
  | false => simp [Refuses, History.deliver, hw, hi] at hn
  | true =>
    have hseen' := hseen.insert (n := n) (by rw [hi])
    rw [hi] at hseen'
    simp only [History.deliver, hw, hi]
    exact ⟨⟨w', rfl, hseen'⟩, by rw [hr.last_eq, highest]⟩

theorem refuses_deliver_self (hr : h.Reflects seen) : (h.deliver n).2.Refuses n := by
  by_cases hn : h.Refuses n
  · rwa [deliver_eq_of_refuses hn]
  · by_contra hagain
    exact ((hr.deliver hn).not_refuses_iff.1 hagain).2.1 (List.mem_cons_self ..)

/-- What is refused stays refused, whatever else arrives. -/
theorem refuses_deliver (hr : h.Reflects seen) (m : UInt64) (hn : h.Refuses n) :
    (h.deliver m).2.Refuses n := by
  by_cases hm : h.Refuses m
  · rwa [deliver_eq_of_refuses hm]
  · have hold : ¬ Admissible seen n := fun ha => hr.not_refuses_iff.2 ha hn
    by_contra hnew
    exact not_admissible_cons m hold ((hr.deliver hm).not_refuses_iff.1 hnew)

end Reflects

def Tracked (h : History) : Prop := ∃ seen, h.Reflects seen

theorem tracked_receiver : receiver.Tracked := ⟨_, reflects_receiver⟩

theorem Tracked.reset (ht : h.Tracked) : h.reset.Tracked :=
  let ⟨_, hr⟩ := ht
  ⟨_, hr.reset⟩

theorem Tracked.deliver (ht : h.Tracked) (n : UInt64) : (h.deliver n).2.Tracked := by
  obtain ⟨seen, hr⟩ := ht
  by_cases hn : h.Refuses n
  · rw [deliver_eq_of_refuses hn]
    exact ⟨seen, hr⟩
  · exact ⟨n :: seen, hr.deliver hn⟩

theorem Tracked.refuses_reset_iff (ht : h.Tracked) : h.reset.Refuses n ↔ n = 0 := by
  obtain ⟨seen, hr⟩ := ht
  rw [← not_iff_not, hr.reset.not_refuses_iff]
  simp [Admissible, highest]

inductive Call
  | deliver (n : UInt64)
  | reset
deriving DecidableEq, Repr

/-- A history with the numbers that it has accepted since its last reset, the latest first. -/
structure Log where
  history : History
  accepted : List UInt64
deriving DecidableEq, Repr

namespace Log

def after (l : Log) : Call → Log
  | .deliver n =>
    match l.history.deliver n with
    | (true, h) => ⟨h, n :: l.accepted⟩
    | (false, h) => ⟨h, l.accepted⟩
  | .reset => ⟨l.history.reset, []⟩

def ofCalls (calls : List Call) : Log := calls.foldl after ⟨.receiver, []⟩

/-- The history stands for the numbers in the log, none of which is there twice. -/
structure Sound (l : Log) : Prop where
  reflects : l.history.Reflects l.accepted
  nodup : l.accepted.Nodup

theorem sound_after {l : Log} (hl : l.Sound) (c : Call) : (l.after c).Sound := by
  cases c with
  | reset => exact ⟨hl.reflects.reset, List.nodup_nil⟩
  | deliver n =>
    by_cases hn : l.history.Refuses n
    · have he := deliver_eq_of_refuses hn
      simp only [after, he]
      exact hl
    · have hin := hl.reflects.not_refuses_iff.1 hn
      have hseen := hl.reflects.deliver hn
      rcases hd : l.history.deliver n with ⟨accepted, h⟩
      cases accepted with
      | false => simp [Refuses, hd] at hn
      | true =>
        rw [hd] at hseen
        simp only [after, hd]
        exact ⟨hseen, List.nodup_cons.2 ⟨hin.2.1, hl.nodup⟩⟩

theorem sound_ofCalls (calls : List Call) : (ofCalls calls).Sound := by
  have hfold (calls : List Call) : ∀ l : Log, l.Sound → (calls.foldl after l).Sound := by
    induction calls with
    | nil => exact fun l hl => hl
    | cons c calls ih => exact fun l hl => ih _ (sound_after hl c)
  exact hfold calls _ ⟨reflects_receiver, List.nodup_nil⟩

/-- After any calls, the last number is the highest one accepted since the last reset, none has been
accepted twice, the next number is accepted exactly when it is new and not too old, and a refusal
changes nothing. -/
theorem ofCalls_spec (calls : List Call) :
    (ofCalls calls).history.last = highest (ofCalls calls).accepted ∧
      (ofCalls calls).accepted.Nodup ∧
      ∀ n, (((ofCalls calls).history.deliver n).1 = true ↔
          n ≠ 0 ∧ n ∉ (ofCalls calls).accepted ∧
            (highest (ofCalls calls).accepted).toNat / 256 * 256 ≤ n.toNat / 256 * 256 + 256) ∧
        (((ofCalls calls).history.deliver n).1 = false →
          ((ofCalls calls).history.deliver n).2 = (ofCalls calls).history) := by
  have hs := sound_ofCalls calls
  refine ⟨hs.reflects.last_eq, hs.nodup, fun n => ⟨?_, fun hn => ?_⟩⟩
  · rw [← Bool.not_eq_false]
    exact hs.reflects.not_refuses_iff
  · rw [deliver_eq_of_refuses hn]

end Log

end History

end Adnl
