namespace Rendition.Beat

def twoPower : Nat → Float
  | 0 => 1
  | n + 1 => 2 * twoPower n

/-- `n` dots lengthen by a half, a quarter and so on. -/
def dotted (n : Nat) : Float := 2 - 1 / twoPower n

/-- Applies length operators to a beat from the left; a run of dots counts as one operator. -/
def scan (beat : Float) : List Char → Float
  | [] => beat
  | c :: rest =>
    if c = '.' then scan (beat * dotted (1 + (rest.takeWhile (· = '.')).length))
      (rest.dropWhile (· = '.'))
    else if c = '=' then scan (beat / 4) rest
    else if c = '-' then scan (beat + 1) rest
    else if c = '_' then scan (beat / 2) rest
    else scan beat rest
  termination_by cs => cs.length
  decreasing_by
    all_goals simp only [List.length_cons]
    · exact Nat.lt_succ_of_le (List.dropWhile_suffix _).length_le
    all_goals omega

def unitFactor (unit : Float) : Float := if unit == 0 then 1 else Float.pow 2 (-unit)

def length (lengths : String) (unit : Float) : Float := scan 1 lengths.toList * unitFactor unit

end Rendition.Beat
