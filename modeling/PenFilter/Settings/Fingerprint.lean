import PenFilter.Settings
import PenFilter.Settings.SipHash

/-! # Fingerprints of settings

Two settings that make the same filter have the same fingerprint.  `Settings.hashInput` is the
byte sequence that is hashed: the variant, the number of samples where it matters, and for each
channel of the variant its index and its formula, which ends at a byte that no text contains. -/

namespace PenFilter

/-- The eight bytes of a word, the lowest first. -/
def littleEndian (n : UInt64) : List UInt8 :=
  (List.range 8).map fun i => (n >>> UInt64.ofNat (8 * i)).toUInt8

namespace Settings

/-- The bytes of a channel and its formula. -/
def channelInput (s : Settings) (c : Channel) : List UInt8 :=
  littleEndian (UInt64.ofNat c.index) ++ (s.formula c).toUTF8.data.toList ++ [0xff]

/-- The bytes of everything that matters in settings. -/
def hashInput (s : Settings) : List UInt8 :=
  littleEndian (UInt64.ofNat s.variant.index) ++
    (if s.variant = .multiSample then littleEndian s.samples else []) ++
    s.filterVariant.channels.flatMap s.channelInput

def fingerprint (s : Settings) : UInt64 := SipHash.hash s.hashInput

end Settings

/-- A fingerprint as sixteen hexadecimal digits. -/
def fingerprintText (n : UInt64) : String :=
  let ds := hexText n.toNat
  String.ofList (List.replicate (16 - ds.length) '0' ++ ds)

end PenFilter
