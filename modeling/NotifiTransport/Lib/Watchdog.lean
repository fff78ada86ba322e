import Mathlib.Order.Basic
import Mathlib.Data.List.Basic
import Mathlib.Order.Lattice

/-! # Watchdogs

A watchdog waits for signs of life. When there was none for an interval it sends a probe, and when
none has come within a timeout after that it gives up. Its owner can be late to see that the timer
has fired, and it may take time to send the probe; it is never too early.
-/

structure Watchdog where
  deadline : ℕ
  /-- A probe is out. -/
  waiting : Bool

namespace Watchdog

/-- A sign of life was seen. -/
def rearm (interval now : ℕ) : Watchdog := ⟨now + interval, false⟩

/-- The probe has been sent. -/
def probe (timeout now : ℕ) : Watchdog := ⟨now + timeout, true⟩

/-- All signs are past, and those that are younger than the interval have put off the timer; after a
probe, those that are younger than the interval and the timeout together. -/
structure Sound (interval timeout : ℕ) (signs : List ℕ) (now : ℕ) (w : Watchdog) : Prop where
  le : ∀ t ∈ signs, t ≤ now
  armed : w.waiting = false → ∀ t ∈ signs, t + interval ≤ w.deadline
  probed : w.waiting = true → ∀ t ∈ signs, t + interval + timeout ≤ w.deadline
  due : w.deadline ≤ now + max interval timeout

/-- The timer has fired, and the probe is being sent. -/
def Probing (interval : ℕ) (signs : List ℕ) (now : ℕ) : Prop := ∀ t ∈ signs, t + interval ≤ now

variable {interval timeout now now' : ℕ} {signs : List ℕ} {w : Watchdog}

theorem Sound.later (h : Sound interval timeout signs now w) (hn : now ≤ now') :
    Sound interval timeout signs now' w where
  le t ht := (h.le t ht).trans hn
  armed := h.armed
  probed := h.probed
  due := h.due.trans (Nat.add_le_add_right hn _)

theorem Probing.later (h : Probing interval signs now) (hn : now ≤ now') :
    Probing interval signs now' :=
  fun t ht => (h t ht).trans hn

theorem sound_rearm (interval timeout : ℕ) (h : ∀ t ∈ signs, t ≤ now) :
    Sound interval timeout (signs ++ [now]) now (rearm interval now) where
  le t ht := by
    rcases List.mem_append.mp ht with ht | ht
    · exact h t ht
    · exact (List.mem_singleton.mp ht).le
  armed _ t ht := by
    apply Nat.add_le_add_right
    rcases List.mem_append.mp ht with ht | ht
    · exact h t ht
    · exact (List.mem_singleton.mp ht).le
  probed := nofun
  due := Nat.add_le_add_left (le_max_left _ _) _

/-- The timer fires for the first time. -/
theorem Sound.fire (h : Sound interval timeout signs now w) (hw : w.waiting = false)
    (hd : w.deadline ≤ now) : Probing interval signs now :=
  fun t ht => (h.armed hw t ht).trans hd

theorem Probing.sound (h : Probing interval signs now) (timeout : ℕ) :
    Sound interval timeout signs now (probe timeout now) where
  le t ht := (Nat.le_add_right t interval).trans (h t ht)
  armed := nofun
  probed _ t ht := Nat.add_le_add_right (h t ht) timeout
  due := Nat.add_le_add_left (le_max_right _ _) _

/-- The timer fires again. -/
theorem Sound.expire (h : Sound interval timeout signs now w) (hw : w.waiting = true)
    (hd : w.deadline ≤ now) : ∀ t ∈ signs, t + interval + timeout ≤ now :=
  fun t ht => (h.probed hw t ht).trans hd

end Watchdog
