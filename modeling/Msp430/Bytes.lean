/-!
# Bytes and words

Memory holds bytes; registers hold 16-bit words. A word in memory has its low byte first.
-/

namespace Msp430

abbrev Bytes := List UInt8

/-- The word with the given bytes. -/
def wordOf (low high : UInt8) : UInt16 := UInt16.ofNat (low.toNat + 256 * high.toNat)

def lowByte (w : UInt16) : UInt8 := UInt8.ofNat w.toNat

def highByte (w : UInt16) : UInt8 := UInt8.ofNat (w.toNat / 256)

/-- The two's complement reading of a word. -/
def signed (w : UInt16) : Int := if w.toNat < 0x8000 then w.toNat else w.toNat - 0x10000

@[simp] theorem wordOf_low_high (w : UInt16) : wordOf (lowByte w) (highByte w) = w := by
  have := w.toNat_lt
  apply UInt16.toNat_inj.mp
  simp only [wordOf, lowByte, highByte, UInt16.toNat_ofNat', UInt8.toNat_ofNat']
  omega

@[simp] theorem lowByte_wordOf (low high : UInt8) : lowByte (wordOf low high) = low := by
  have := low.toNat_lt
  apply UInt8.toNat_inj.mp
  simp only [wordOf, lowByte, UInt16.toNat_ofNat', UInt8.toNat_ofNat']
  omega

@[simp] theorem highByte_wordOf (low high : UInt8) : highByte (wordOf low high) = high := by
  have := low.toNat_lt
  have := high.toNat_lt
  apply UInt8.toNat_inj.mp
  simp only [wordOf, highByte, UInt16.toNat_ofNat', UInt8.toNat_ofNat']
  omega

end Msp430
