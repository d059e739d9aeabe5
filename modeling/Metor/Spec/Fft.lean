import Metor.Impl.Fft

/-!
# The frequency of a row

`rowBin` is the bin whose magnitude `fft` puts in a row, and `binFrequency` the
frequency that the bin stands for.
-/

namespace Metor.Impl.Fft

/-- The bin of row `j` of `n`. -/
def rowBin (n j : Nat) : Nat := if j < n / 2 then n - n / 2 + j else j - n / 2

/-- The frequency of bin `b` of a forward transform of `n` values. -/
def binFrequency (sampleRate : ℚ) (n b : Nat) : ℚ :=
  if b < n - n / 2 then (b : ℚ) / n * sampleRate else ((b : ℚ) - n) / n * sampleRate

/-- Row `j` of `fft` has the magnitude of `rowBin`, and row `j` of `fftfreq` the frequency of that bin. -/
structure LinesUp (sampleRate : ℚ) (n j : Nat) : Prop where
  magnitude : ∀ (α β : Type) (transform : List α → List β) (input : List α), input.length = n →
    (transform input).length = n → (computeFftMagnitudes transform input)[j]? = (transform input)[rowBin n j]?
  frequency : (frequencies sampleRate n)[j]? = some (binFrequency sampleRate n (rowBin n j))
  expected : binFrequency sampleRate n (rowBin n j) = ((j : ℚ) - (n / 2 : Nat)) * sampleRate / n

end Metor.Impl.Fft
