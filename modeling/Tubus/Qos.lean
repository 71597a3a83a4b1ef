import Mathlib.Algebra.Group.Nat.Defs
import Mathlib.Algebra.Group.Int.Defs

/-!
# Parameters, times and outcomes

What both transports share: the tuning values of `utils.cpp`, the clock, and the error codes
handed to callbacks.

A `ptime` is its number of microseconds after `g_zero_time`, and a `time_duration` is a number
of microseconds. Both are kept by the date_time library in signed 64-bit counts, a `ptime` from
the first Julian day on (`epoch`), and three counts stand for `not_a_date_time` and the two
infinities. An addition runs into the special values, and runs over the end of the counts
(`later`). `max_date_time` is an ordinary time. Times are compared by their counts, the special
ones among them.
-/

namespace Tubus

/-- Microseconds after `g_zero_time`. -/
abbrev Time := Int

/-- `g_zero_time`, the first of January 1970. -/
def zeroTime : Time := 0

/-- `boost::posix_time::min_date_time`, the start of the year 1400. -/
def minDateTime : Time := -17987443200000000

/-- `boost::posix_time::max_date_time`, the last microsecond of the year 9999. -/
def maxDateTime : Time := 253402300799999999

/-- The count of `g_zero_time`. -/
def epoch : Int := 210866803200000000

/-- The counts with a meaning of their own. -/
def posInfinity : Int := 2 ^ 63 - 1

def notADateTime : Int := 2 ^ 63 - 2

def negInfinity : Int := -2 ^ 63

/-- `int_adapter::is_special`. -/
def Special (n : Int) : Prop := n = posInfinity ∨ n = notADateTime ∨ n = negInfinity

instance (n : Int) : Decidable (Special n) := inferInstanceAs (Decidable (_ ∨ _))

/-- The signed 64-bit count that an integer is stored as. -/
def wrap (n : Int) : Int := (n + 2 ^ 63) % 2 ^ 64 - 2 ^ 63

/-- `int_adapter::operator+`. -/
def plus (a b : Int) : Int :=
  if Special a ∨ Special b then
    if a = notADateTime ∨ b = notADateTime ∨ (a = posInfinity ∧ b = negInfinity) ∨
        (a = negInfinity ∧ b = posInfinity) then notADateTime
    else if Special a then a
    else b
  else wrap (a + b)

/-- `ptime + time_duration`. -/
def later (t : Time) (d : Int) : Time := plus (t + epoch) d - epoch

/-- `(ptime - g_zero_time).total_microseconds()`. -/
def sinceZero (t : Time) : Int := if Special (t + epoch) then t + epoch else wrap t

/-- The times that `microsec_clock::universal_time` gives. It throws outside of the calendar. -/
def Reading (t : Time) : Prop := minDateTime ≤ t ∧ t ≤ maxDateTime

instance (t : Time) : Decidable (Reading t) := inferInstanceAs (Decidable (_ ∧ _))

/-- The longest duration that can be added to every reading of the clock. -/
def longest : Int := 2 ^ 63 - 1 - (maxDateTime + epoch)

theorem Reading.bounds {t : Int} (h : Reading t) :
    (-17987443200000000 : Int) ≤ t ∧ t ≤ (253402300799999999 : Int) := h

/-- An addition without special values. -/
theorem later_eq_wrap {t d : Int} (ht : Reading t) (hd : ¬ Special d) :
    later t d = wrap (t + epoch + d) - epoch := by
  have hcount : ¬ Special (t + epoch) := by
    have hbounds := ht.bounds
    simp only [Special, posInfinity, notADateTime, negInfinity, epoch]
    omega
  rw [later, plus, if_neg (not_or.mpr ⟨hcount, hd⟩)]

theorem not_special {d : Int} (hd : 0 ≤ d) (hlt : d < 2 ^ 63 - 2) : ¬ Special d := by
  simp only [Special, posInfinity, notADateTime, negInfinity]
  omega

/-- Up to the longest duration, an addition is one. -/
theorem later_eq {t d : Int} (ht : Reading t) (hd : 0 ≤ d) (hle : d ≤ longest) :
    later t d = t + d := by
  have hlongest : longest = (8759102932854775808 : Int) := by decide
  have hbounds := ht.bounds
  rw [hlongest] at hle
  rw [later_eq_wrap ht (not_special hd (by omega)), wrap, epoch]
  show (_ : Int) = t + d
  omega

/-- A longer one ends before the last reading, unless it is special. -/
theorem later_lt {d : Int} (hlong : longest < d) (hd : d < 2 ^ 63 - 2) :
    later maxDateTime d < maxDateTime := by
  have hlongest : longest = (8759102932854775808 : Int) := by decide
  have hlast : maxDateTime = (253402300799999999 : Int) := rfl
  rw [hlongest] at hlong
  rw [later_eq_wrap (by decide) (not_special (by omega) hd), wrap, epoch, hlast]
  change ((253402300799999999 + 210866803200000000 + d + 2 ^ 63) % 2 ^ 64 - 2 ^ 63 -
    210866803200000000 : Int) < 253402300799999999
  omega

/-- A callback, by its name. -/
abbrev Handler := Nat

/-- `error_code`, for the codes the library hands out itself, and any other one a socket
operation reports. -/
inductive Ec where
  | success
  | inProgress
  | notConnected
  | alreadyConnected
  | noPermission
  | noBufferSpace
  | brokenPipe
  | interrupted
  | connectionAborted
  | tryAgain
  | badDescriptor
  | messageSize
  | noRecovery
  | networkReset
  | system (code : Nat)
  deriving DecidableEq, Repr

/-- `udp::qos`. The sizes and counts are `size_t` values read from the environment. -/
structure Qos where
  receiveBufferSize : Nat
  sendBufferSize : Nat
  maxPacketSize : Nat
  snippetSwarm : Nat
  moveAttempts : Nat
  pingTimeout : Int
  shutdownTimeout : Int
  connectTimeout : Int
  acceptTimeout : Int
  receiveBufferSize_lt : receiveBufferSize < 2 ^ 64
  sendBufferSize_lt : sendBufferSize < 2 ^ 64

/-- The values used where the environment sets none. -/
def Qos.default : Qos where
  receiveBufferSize := 5 * 1024 * 1024
  sendBufferSize := 5 * 1024 * 1024
  maxPacketSize := 1406
  snippetSwarm := 1024
  moveAttempts := 32
  pingTimeout := 15 * 1000000
  shutdownTimeout := 2000 * 1000
  connectTimeout := 30 * 1000000
  acceptTimeout := 30 * 1000000
  receiveBufferSize_lt := by decide
  sendBufferSize_lt := by decide

end Tubus
