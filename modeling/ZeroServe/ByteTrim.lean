import ZeroServe.ByteText

/-! Taking blanks off both ends: the ASCII trim of byte strings and the trim of Rust strings, which takes off every
Unicode white space. -/
namespace ZeroServe.ByteText

/- `u8::is_ascii_whitespace`, which leaves out the vertical tab. -/
def asciiWhitespace (b : UInt8) : Bool := b == 9 || b == 10 || b == 12 || b == 13 || b == 32

def trimAsciiStart (s : Bytes) : Bytes := s.dropWhile asciiWhitespace
def trimAscii (s : Bytes) : Bytes := (trimAsciiStart s).rdropWhile asciiWhitespace

theorem memDropWhile {p : UInt8 → Bool} {s : Bytes} {b : UInt8} (mem : b ∈ s) (stop : p b = false) :
    b ∈ s.dropWhile p := by
  induction s with
  | nil => simp at mem
  | cons c rest ih =>
    rw [List.dropWhile_cons]
    split
    · rename_i drop
      rcases List.mem_cons.mp mem with same | inner
      · rw [← same,stop] at drop; contradiction
      · exact ih inner
    · exact mem

theorem memTrimAscii {s : Bytes} {b : UInt8} (mem : b ∈ s) (stop : asciiWhitespace b = false) : b ∈ trimAscii s := by
  have front := memDropWhile mem stop
  exact List.mem_reverse.mpr (memDropWhile (List.mem_reverse.mpr front) stop)

theorem trimAsciiNone {s} (none : ∀ b ∈ s, asciiWhitespace b = false) : trimAscii s = s := by
  have keep : ∀ t : Bytes, (∀ b ∈ t, asciiWhitespace b = false) →
      t.dropWhile asciiWhitespace = t := by
    intro t ht
    cases t with
    | nil => rfl
    | cons b rest => rw [List.dropWhile_cons,ht b (by simp)]; rfl
  rw [trimAscii,trimAsciiStart,keep s none,List.rdropWhile,keep s.reverse (by simpa using none),
    List.reverse_reverse]

/- The White_Space characters of Unicode in UTF-8, which `str::trim` removes. -/
def whiteSpace : List Bytes :=
  [[9],[10],[11],[12],[13],[32],[0xC2,0x85],[0xC2,0xA0],[0xE1,0x9A,0x80],
   [0xE2,0x80,0x80],[0xE2,0x80,0x81],[0xE2,0x80,0x82],[0xE2,0x80,0x83],[0xE2,0x80,0x84],
   [0xE2,0x80,0x85],[0xE2,0x80,0x86],[0xE2,0x80,0x87],[0xE2,0x80,0x88],[0xE2,0x80,0x89],
   [0xE2,0x80,0x8A],[0xE2,0x80,0xA8],[0xE2,0x80,0xA9],[0xE2,0x80,0xAF],[0xE2,0x81,0x9F],
   [0xE3,0x80,0x80]]

def stripFront (patterns : List Bytes) : Nat → Bytes → Bytes
  | 0, s => s
  | fuel+1, s =>
    match patterns.find? (·.isPrefixOf s) with
    | some pat => stripFront patterns fuel (s.drop pat.length)
    | none => s

def strTrimStart (s : Bytes) : Bytes := stripFront whiteSpace s.length s
def strTrimEnd (s : Bytes) : Bytes :=
  (stripFront (whiteSpace.map List.reverse) s.length s.reverse).reverse
def strTrim (s : Bytes) : Bytes := strTrimEnd (strTrimStart s)

def plainByte (b : UInt8) : Bool := b < 128 && b != 11

def Trims (patterns : List Bytes) : Prop :=
  ∀ b, plainByte b = true → ∀ rest : Bytes, patterns.find? (·.isPrefixOf (b::rest)) =
    if asciiWhitespace b then some [b] else none

theorem trimsOf {patterns} (single : patterns.all (fun p => p.length == 1 || p.head?.any (128 ≤ ·)) = true)
    (values : ∀ b, plainByte b = true → patterns.find? (· == [b]) =
      if asciiWhitespace b then some [b] else none) : Trims patterns := by
  intro b plain rest
  rw [← values b plain]
  have agree : ∀ p ∈ patterns, p.isPrefixOf (b::rest) = (p == [b]) := by
    intro p mem
    have shape := List.all_eq_true.mp single p mem
    have low : b < 128 := by
      simp only [plainByte,Bool.and_eq_true,decide_eq_true_eq] at plain
      exact plain.1
    cases p with
    | nil => simp at shape
    | cons c cs =>
      cases cs with
      | nil => simp [List.isPrefixOf]
      | cons d ds =>
        have high : 128 ≤ c := by simpa using shape
        have apart : c ≠ b := fun same => absurd (same ▸ high) (by simpa using low)
        simp [List.isPrefixOf,apart]
  clear single values
  induction patterns with
  | nil => rfl
  | cons p ps ih =>
    rw [List.find?_cons,List.find?_cons,agree p (by simp),
      ih (fun q hq => agree q (by simp [hq]))]

theorem frontTrims : Trims whiteSpace := trimsOf (by decide +kernel) (by decide +kernel)
theorem backTrims : Trims (whiteSpace.map List.reverse) :=
  trimsOf (by decide +kernel) (by decide +kernel)

theorem stripFrontPlain {patterns} (trims : Trims patterns) {s fuel} (plain : ∀ b ∈ s, plainByte b = true)
    (enough : s.length ≤ fuel) : stripFront patterns fuel s = s.dropWhile asciiWhitespace := by
  induction fuel generalizing s with
  | zero =>
    have none : s = [] := List.length_eq_zero_iff.mp (by omega)
    simp [none,stripFront]
  | succ fuel ih =>
    cases s with
    | nil =>
      have drop : ∀ pat : Bytes, stripFront patterns fuel (([] : Bytes).drop pat.length) = [] := by
        intro pat
        rw [List.drop_nil,ih (by simp) (by simp)]; rfl
      rw [stripFront]
      split
      · exact drop _
      · rfl
    | cons b rest =>
      rw [stripFront,trims b (plain b (by simp)) rest,List.dropWhile_cons]
      cases asciiWhitespace b with
      | true => exact ih (fun c hc => plain c (List.mem_cons_of_mem _ hc)) (by simpa using enough)
      | false => rfl

theorem strTrimPlain {s} (plain : ∀ b ∈ s, plainByte b = true) : strTrim s = trimAscii s := by
  have front : strTrimStart s = trimAsciiStart s := stripFrontPlain frontTrims plain le_rfl
  have inner : ∀ b ∈ trimAsciiStart s, plainByte b = true := fun b mem =>
    plain b ((List.dropWhile_suffix _).subset mem)
  rw [strTrim,front,strTrimEnd,stripFrontPlain backTrims (by simpa using inner) (by simp)]
  rfl

theorem stripFrontStop {patterns} (trims : Trims patterns) {k fuel} {b rest} (plain : plainByte b = true)
    (stop : asciiWhitespace b = false) : stripFront patterns (k + fuel) (List.replicate k 32 ++ b::rest) = b::rest := by
  induction k with
  | zero =>
    cases fuel with
    | zero => rfl
    | succ fuel => simp [stripFront,trims b plain rest,stop]
  | succ k ih =>
    have blank := trims 32 (by decide) (List.replicate k 32 ++ b::rest)
    rw [show k + 1 + fuel = (k + fuel) + 1 by omega,List.replicate_succ,List.cons_append,
      stripFront,blank]
    exact ih

theorem strTrimStartStop {k} {b rest} (plain : plainByte b = true) (stop : asciiWhitespace b = false) :
    strTrimStart (List.replicate k 32 ++ b::rest) = b::rest := by
  have length : (List.replicate k (32 : UInt8) ++ b::rest).length = k + (rest.length + 1) := by simp
  rw [strTrimStart,length]
  exact stripFrontStop frontTrims plain stop

theorem blankPlain : ∀ b : UInt8, asciiWhitespace b = true → plainByte b = true := by
  decide +kernel

theorem stripFrontSuffix {patterns} (trims : Trims patterns) {s fuel} (enough : s.length ≤ fuel) :
    stripFront patterns fuel s <:+ s.dropWhile asciiWhitespace := by
  have any : ∀ (fuel : Nat) (s : Bytes), stripFront patterns fuel s <:+ s := by
    intro fuel
    induction fuel with
    | zero => intro s; exact List.suffix_rfl
    | succ fuel ih =>
      intro s
      rw [stripFront]
      split
      · exact (ih _).trans (List.drop_suffix _ _)
      · exact List.suffix_rfl
  induction s generalizing fuel with
  | nil => simpa using any fuel []
  | cons b rest ih =>
    cases blank : asciiWhitespace b with
    | false => rw [List.dropWhile_cons_of_neg (by simp [blank])]; exact any fuel _
    | true =>
      have plain := blankPlain b blank
      cases fuel with
      | zero => simp at enough
      | succ fuel =>
        rw [stripFront,trims b plain rest,blank,List.dropWhile_cons_of_pos (by simp [blank])]
        exact ih (by simpa using enough)

theorem rdropWhileSuffix {p : UInt8 → Bool} {u w} (h : u <:+ w) : (u.rdropWhile p).Sublist (w.rdropWhile p) := by
  obtain ⟨x,rfl⟩ := h
  unfold List.rdropWhile
  rw [List.reverse_append,List.reverse_sublist,List.dropWhile_append]
  split
  · rename_i none
    rw [List.isEmpty_iff.mp none]
    exact List.nil_sublist _
  · exact List.sublist_append_left _ _

theorem strTrimSublist (v : Bytes) : (strTrim v).Sublist (trimAscii v) := by
  have front : strTrimStart v <:+ trimAsciiStart v := stripFrontSuffix frontTrims le_rfl
  have back : (strTrim v).Sublist ((strTrimStart v).rdropWhile asciiWhitespace) := by
    have inner : stripFront (whiteSpace.map List.reverse) (strTrimStart v).length
        (strTrimStart v).reverse <:+ (strTrimStart v).reverse.dropWhile asciiWhitespace :=
      stripFrontSuffix backTrims (by simp)
    exact List.reverse_sublist.mpr inner.sublist
  exact back.trans (rdropWhileSuffix front)

theorem trimAsciiSublist (v : Bytes) : (trimAscii v).Sublist v :=
  (List.rdropWhile_prefix _ _).sublist.trans (List.dropWhile_suffix _).sublist

theorem trimmedSame {v} (h : (trimAscii v).length ≤ (trimAscii (strTrim v)).length) :
    trimAscii (strTrim v) = trimAscii v :=
  ((trimAsciiSublist _).trans (strTrimSublist v)).eq_of_length_le h

section
variable {p : UInt8 → Bool}

theorem rdropWhileCons (p : UInt8 → Bool) (b : UInt8) (t : Bytes) :
    (b::t).rdropWhile p = if t.rdropWhile p = [] then [b].rdropWhile p else b::t.rdropWhile p := by
  simp only [List.rdropWhile,List.reverse_cons,List.dropWhile_append,List.isEmpty_iff,List.reverse_eq_nil_iff]
  split <;> simp

theorem rdropWhileSolid {b} (solid : p b = false) (rest : Bytes) : (b::rest).rdropWhile p = b::rest.rdropWhile p := by
  rw [rdropWhileCons]
  split
  · rename_i none
    rw [none,List.rdropWhile_singleton,solid]
    rfl
  · rfl

theorem rdropWhileBehind (front : Bytes) {b} (solid : p b = false) (rest : Bytes) :
    (front ++ b::rest).rdropWhile p = front ++ b::rest.rdropWhile p := by
  induction front with
  | nil => exact rdropWhileSolid solid rest
  | cons a front ih => rw [List.cons_append,rdropWhileCons,ih,if_neg (by simp)]; rfl

theorem trimsCommute (p : UInt8 → Bool) (s : Bytes) : (s.rdropWhile p).dropWhile p = (s.dropWhile p).rdropWhile p := by
  induction s with
  | nil => rfl
  | cons b t ih =>
    cases blank : p b with
    | true =>
      rw [rdropWhileCons,List.dropWhile_cons_of_pos blank,← ih]
      split
      · rename_i none
        simp [List.rdropWhile_singleton,blank,none]
      · rw [List.dropWhile_cons_of_pos blank]
    | false =>
      have solid : ¬ p b = true := by simp [blank]
      rw [List.dropWhile_cons_of_neg solid,rdropWhileSolid blank,List.dropWhile_cons_of_neg solid]

end

theorem trimAsciiEnd (s : Bytes) : trimAscii (s.rdropWhile asciiWhitespace) = trimAscii s := by
  rw [trimAscii,trimAsciiStart,trimsCommute,List.rdropWhile_idempotent]
  rfl

end ZeroServe.ByteText
