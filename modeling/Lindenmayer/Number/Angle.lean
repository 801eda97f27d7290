/-!
# Angles in degrees

Angles are written in degrees and turned into radians by one multiplication. At
a zero of either sign the sine is that same zero and the cosine is one; the two
functions say so themselves, because everything else about them is up to the
platform.
-/

namespace Lindenmayer.Number

/-- One degree in radians: the double nearest to π / 180. -/
def degree : Float := .ofBits 0x3f91df46a2529d39

def radians (degrees : Float) : Float := degrees * degree

def sine (angle : Float) : Float := if angle == 0 then angle else angle.sin

def cosine (angle : Float) : Float := if angle == 0 then 1 else angle.cos

theorem sine_of_beq_zero {x : Float} (h : (x == 0) = true) : sine x = x := by
  simp [sine, h]

theorem cosine_of_beq_zero {x : Float} (h : (x == 0) = true) : cosine x = 1 := by
  simp [cosine, h]

end Lindenmayer.Number
