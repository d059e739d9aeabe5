import Mathlib.Algebra.Field.Rat
import Mathlib.Data.List.Basic

/-!
# Frequencies and magnitudes (`libs/db/src/arrow/fft.rs`)

The functions `fftfreq` and `fft` of a query, for the rows of one array.
Rational numbers stand for the floats, and the planned forward transform is a
parameter: the magnitudes of its bins, in their order.
-/

namespace Metor.Impl.Fft

/-- The differences of neighbours in seconds, of timestamps in microseconds: `windows(2)`. -/
def differences : List Int → List ℚ
  | a :: b :: timestamps => ((b : ℚ) - a) * (1 / 1000000) :: differences (b :: timestamps)
  | _ => []

/-- `period`: the mean difference. -/
def period (timestamps : List Int) : ℚ := (differences timestamps).sum / (differences timestamps).length

/-- The rows that `FrequencyDomainUDF` gives for `len` rows. -/
def frequencies (sampleRate : ℚ) (len : Nat) : List ℚ :=
  let n := if len % 2 = 0 then len else len - 1
  (((List.range (n / 2)).reverse.map fun i : Nat => (i : ℚ) * -sampleRate / n) ++
    ((List.range (n / 2)).map fun i : Nat => (i : ℚ) * sampleRate / n) ++ List.replicate len 0).take len

/-- `FrequencyDomainUDF::invoke_with_args` -/
def fftfreq (timestamps : List Int) : List ℚ :=
  if timestamps.length = 0 then [] else frequencies (1 / period timestamps) timestamps.length

/-- `rotate_right` -/
def rotateRight {α : Type} (xs : List α) (k : Nat) : List α := xs.drop (xs.length - k) ++ xs.take (xs.length - k)

/-- `compute_fft_magnitudes` -/
def computeFftMagnitudes {α β : Type} (transform : List α → List β) (input : List α) : List β :=
  if input = [] then []
  else
    let mags := transform input
    let shift := mags.length / 2
    rotateRight mags shift

end Metor.Impl.Fft
