import ZeroServe.ByteTrim

/-! IP addresses and their texts. Reading and writing a text is the standard library's part, and `IpText` is what is
assumed of it. -/
namespace ZeroServe.Ip
open ByteText

inductive IpAddr where
  | v4 (bits : BitVec 32)
  | v6 (bits : BitVec 128)
  deriving DecidableEq

def ipByte (b : UInt8) : Bool :=
  (48 ≤ b && b ≤ 58) || b == 46 || (97 ≤ b && b ≤ 102) || (65 ≤ b && b ≤ 70)

structure IpText where
  parseIp : Bytes → Option IpAddr
  parseSocket : Bytes → Option IpAddr
  display : IpAddr → Bytes
  readsDisplay : ∀ a, parseIp (display a) = some a
  plain : ∀ {x a}, parseIp x = some a → x ≠ [] ∧ ∀ b ∈ x, ipByte b = true
  notSocket : ∀ {x a}, parseIp x = some a → parseSocket x = none
  emptySocket : parseSocket [] = none

variable (ip : IpText)

theorem IpText.displayInj {a b} (same : ip.display a = ip.display b) : a = b :=
  Option.some.inj (by rw [← ip.readsDisplay a,same,ip.readsDisplay b])

theorem IpText.parseIpNone {x b} (mem : b ∈ x) (strange : ipByte b = false) : ip.parseIp x = none := by
  cases read : ip.parseIp x with
  | none => rfl
  | some a =>
    have known := (ip.plain read).2 b mem
    rw [strange] at known
    cases known

theorem IpText.parseIpEmpty : ip.parseIp [] = none := by
  cases read : ip.parseIp [] with
  | none => rfl
  | some a => exact absurd rfl (ip.plain read).1

theorem IpText.parseIpAbsent {x a} (read : ip.parseIp x = some a) {b} (strange : ipByte b = false) :
    b ∉ x := by
  intro mem
  rw [ip.parseIpNone mem strange] at read
  cases read

def groups (base : Nat) : Nat → Nat → List Nat
  | 0, _ => []
  | count + 1, n => groups base count (n / base) ++ [n % base]

def joined (base : Nat) (l : List Nat) : Nat := l.foldl (fun n g => n * base + g) 0

theorem joinedGroups (base count n : Nat) : joined base (groups base count n) = n % base ^ count := by
  induction count generalizing n with
  | zero => simp [groups,joined,Nat.mod_one]
  | succ count ih =>
    have inner : (groups base count (n / base)).foldl (fun n g => n * base + g) 0 =
        n / base % base ^ count := ih _
    rw [groups,joined,List.foldl_append,inner,Nat.pow_succ,Nat.mul_comm (base ^ count),Nat.mod_mul]
    simp only [List.foldl_cons,List.foldl_nil]
    rw [Nat.mul_comm base,Nat.add_comm]

theorem groupsLength (base count n : Nat) : (groups base count n).length = count := by
  induction count generalizing n with
  | zero => rfl
  | succ count ih => simp [groups,ih]

theorem groupsSmall {base} (some : 0 < base) (count n : Nat) : ∀ g ∈ groups base count n, g < base := by
  induction count generalizing n with
  | zero => simp [groups]
  | succ count ih =>
    intro g mem
    rcases List.mem_append.mp mem with inside | last
    · exact ih _ g inside
    · rw [List.mem_singleton.mp last]
      exact Nat.mod_lt n some

def decimal (n : Nat) : Bytes := (Nat.toDigits 10 n).map fun c => UInt8.ofNat c.toNat
def hexDigit (d : Nat) : UInt8 := if d < 10 then UInt8.ofNat (48 + d) else UInt8.ofNat (87 + d)
def hexGroup (n : Nat) : Bytes :=
  [hexDigit (n / 4096 % 16),hexDigit (n / 256 % 16),hexDigit (n / 16 % 16),hexDigit (n % 16)]

/- How one kind of group is written and read, and what is between two of them. -/
structure GroupText where
  base : Nat
  sep : UInt8
  write : Nat → Bytes
  read : Bytes → Option Nat
  positive : 0 < base
  sepPlain : ipByte sep = true
  reads : ∀ n < base, read (write n) = some n
  apart : ∀ n < base, sep ∉ write n
  plain : ∀ n < base, ∀ b ∈ write n, ipByte b = true

namespace GroupText
variable (g : GroupText)

def display (count n : Nat) : Bytes := [g.sep].intercalate ((groups g.base count n).map g.write)
def parse (count : Nat) (x : Bytes) : Option Nat := do
  let l ← (x.splitOn g.sep).mapM g.read
  if l.length = count then some (joined g.base l) else none

theorem splitDisplay {count n} (some : 0 < count) :
    (g.display count n).splitOn g.sep = (groups g.base count n).map g.write := by
  apply List.splitOn_intercalate
  · rintro x mem
    obtain ⟨d,inside,rfl⟩ := List.mem_map.mp mem
    exact g.apart d (groupsSmall g.positive _ _ d inside)
  · intro empty
    have length := congrArg List.length empty
    rw [List.length_map,groupsLength,List.length_nil] at length
    omega

theorem readAll {l : List Nat} (small : ∀ d ∈ l, d < g.base) : (l.map g.write).mapM g.read = some l := by
  induction l with
  | nil => rfl
  | cons d l ih =>
    simp [g.reads d (small d (by simp)),ih fun d' mem => small d' (by simp [mem])]

theorem parseDisplay {count n} (some : 0 < count) : g.parse count (g.display count n) = .some (n % g.base ^ count) := by
  have read := g.readAll (groupsSmall g.positive count n)
  simp [parse,g.splitDisplay some,read,groupsLength,joinedGroups]

theorem displayPlain {count n} {b} (mem : b ∈ g.display count n) : ipByte b = true := by
  rcases memIntercalate mem with rfl | ⟨w,inside,here⟩
  · exact g.sepPlain
  · obtain ⟨d,small,rfl⟩ := List.mem_map.mp inside
    exact g.plain d (groupsSmall g.positive _ _ d small) b here

end GroupText

theorem hexGroupReads {n} (small : n < 65536) : fromStrRadix 16 65536 (hexGroup n) = some n := by
  have digit : ∀ d < 16, digitVal 16 (hexDigit d) = some d := by decide
  have sign : ∀ d < 16, hexDigit d ≠ 43 := by decide
  have first := digit (n / 4096 % 16) (by omega)
  have second := digit (n / 256 % 16) (by omega)
  have third := digit (n / 16 % 16) (by omega)
  have last := digit (n % 16) (by omega)
  have bounds : n / 4096 % 16 < 65536 ∧ n / 4096 % 16 * 16 + n / 256 % 16 < 65536 ∧
      (n / 4096 % 16 * 16 + n / 256 % 16) * 16 + n / 16 % 16 < 65536 := by omega
  have whole : ((n / 4096 % 16 * 16 + n / 256 % 16) * 16 + n / 16 % 16) * 16 + n % 16 = n := by omega
  simp [fromStrRadix,hexGroup,sign _ (show n / 4096 % 16 < 16 by omega),readDigits,first,second,third,
    last,bounds,whole,small]

theorem decimalReads : ∀ n < 256, fromStrRadix 10 256 (decimal n) = some n := by decide +kernel
theorem decimalApart : ∀ n < 256, (46 : UInt8) ∉ decimal n := by decide +kernel
theorem decimalPlain (n : Nat) (small : n < 256) (b : UInt8) (mem : b ∈ decimal n) : b ≠ 58 ∧ ipByte b = true := by
  have all : ∀ n < 256, (decimal n).all (fun b => b != 58 && ipByte b) = true := by decide +kernel
  simpa using List.all_eq_true.mp (all n small) b mem

def decimalText : GroupText where
  base := 256
  sep := 46
  write := decimal
  read := fromStrRadix 10 256
  positive := by decide
  sepPlain := by decide
  reads := decimalReads
  apart := decimalApart
  plain n small b mem := (decimalPlain n small b mem).2

def hexText : GroupText where
  base := 65536
  sep := 58
  write := hexGroup
  read := fromStrRadix 16 65536
  positive := by decide
  sepPlain := by decide
  reads _ small := hexGroupReads small
  apart n _ mem := by
    have digit : ∀ d < 16, hexDigit d ≠ 58 := by decide
    simp only [hexGroup,List.mem_cons,List.not_mem_nil,or_false] at mem
    rcases mem with same | same | same | same <;> exact digit _ (by omega) same.symm
  plain n _ b mem := by
    have digit : ∀ d < 16, ipByte (hexDigit d) = true := by decide
    simp only [hexGroup,List.mem_cons,List.not_mem_nil,or_false] at mem
    rcases mem with rfl | rfl | rfl | rfl <;> exact digit _ (by omega)

namespace Canonical

def display : IpAddr → Bytes
  | .v4 bits => decimalText.display 4 bits.toNat
  | .v6 bits => hexText.display 8 bits.toNat

def guess (x : Bytes) : Option IpAddr :=
  if x.contains 46 then (decimalText.parse 4 x).map fun n => .v4 (BitVec.ofNat 32 n)
  else (hexText.parse 8 x).map fun n => .v6 (BitVec.ofNat 128 n)

def parseIp (x : Bytes) : Option IpAddr :=
  (guess x).bind fun a => if display a = x then some a else none

def parseSocket (x : Bytes) : Option IpAddr :=
  match x with
  | 91::rest =>
    match splitOnce 93 rest with
    | some (host,58::port) => (fromStrRadix 10 65536 port).bind fun _ => parseIp host
    | _ => none
  | _ =>
    match x.splitOn 58 with
    | [host,port] => (fromStrRadix 10 65536 port).bind fun _ => parseIp host
    | _ => none

theorem dotted (n : Nat) : (46 : UInt8) ∈ decimalText.display 4 n := by
  by_contra absent
  have one := decimalText.splitDisplay (n := n) (show 0 < 4 by decide)
  rw [show decimalText.sep = 46 from rfl,List.splitOn_eq_singleton absent] at one
  have length := congrArg List.length one
  cases length

theorem undotted (n : Nat) : (46 : UInt8) ∉ hexText.display 8 n := by
  intro mem
  rcases memIntercalate mem with same | ⟨w,inside,here⟩
  · cases same
  · obtain ⟨d,_,rfl⟩ := List.mem_map.mp inside
    have digit : ∀ d < 16, hexDigit d ≠ 46 := by decide
    simp only [hexText,hexGroup,List.mem_cons,List.not_mem_nil,or_false] at here
    rcases here with same | same | same | same <;> exact digit _ (by omega) same.symm

variable (a : IpAddr)

theorem guessDisplay : guess (display a) = some a := by
  cases a with
  | v4 bits =>
    have read := decimalText.parseDisplay (n := bits.toNat) (show 0 < 4 by decide)
    have whole : bits.toNat % decimalText.base ^ 4 = bits.toNat := Nat.mod_eq_of_lt bits.isLt
    rw [whole] at read
    rw [guess,display,if_pos (List.contains_iff_mem.mpr (dotted _)),read]
    simp
  | v6 bits =>
    have read := hexText.parseDisplay (n := bits.toNat) (show 0 < 8 by decide)
    have whole : bits.toNat % hexText.base ^ 8 = bits.toNat := Nat.mod_eq_of_lt bits.isLt
    rw [whole] at read
    rw [guess,display,if_neg (fun dot => undotted _ (List.contains_iff_mem.mp dot)),read]
    simp

theorem readsDisplay : parseIp (display a) = some a := by
  simp [parseIp,guessDisplay]

theorem onlyDisplay {x a} (read : parseIp x = some a) : x = display a := by
  obtain ⟨b,_,last⟩ := Option.bind_eq_some_iff.mp read
  split at last
  · rename_i same
    cases Option.some.inj last
    exact same.symm
  · cases last

theorem displayPlain : ∀ b ∈ display a, ipByte b = true := by
  intro b mem
  cases a with
  | v4 bits => exact decimalText.displayPlain mem
  | v6 bits => exact hexText.displayPlain mem

theorem notPair (host port : Bytes) : (display a).splitOn 58 ≠ [host,port] := by
  intro pair
  have length := congrArg List.length pair
  cases a with
  | v4 bits =>
    have absent : (58 : UInt8) ∉ display (.v4 bits) := by
      intro mem
      rcases memIntercalate mem with same | ⟨w,inside,here⟩
      · cases same
      · obtain ⟨d,small,rfl⟩ := List.mem_map.mp inside
        exact (decimalPlain d (groupsSmall (by decide) _ _ d small) 58 here).1 rfl
    rw [List.splitOn_eq_singleton absent] at length
    cases length
  | v6 bits =>
    have split : (display (.v6 bits)).splitOn 58 = _ := hexText.splitDisplay (show 0 < 8 by decide)
    rw [split,List.length_map,groupsLength] at length
    cases length

theorem parseSocketNone {x} (bracket : 91 ∉ x) (pair : ∀ host port, x.splitOn 58 ≠ [host,port]) :
    parseSocket x = none := by
  fun_cases parseSocket x with
  | case1 => simp at bracket
  | case2 => rfl
  | case3 _ host port split => exact absurd split (pair host port)
  | case4 => split <;> first | rfl | exact absurd ‹_› (pair _ _)

end Canonical

def canonical : IpText where
  parseIp := Canonical.parseIp
  parseSocket := Canonical.parseSocket
  display := Canonical.display
  readsDisplay := Canonical.readsDisplay
  plain {x a} read := by
    rw [Canonical.onlyDisplay read]
    refine ⟨fun empty => ?_,Canonical.displayPlain a⟩
    have reads := Canonical.readsDisplay a
    rw [empty] at reads
    cases reads
  notSocket {x a} read := by
    rw [Canonical.onlyDisplay read]
    refine Canonical.parseSocketNone (fun mem => ?_) (Canonical.notPair a)
    cases Canonical.displayPlain a 91 mem
  emptySocket := by decide

end ZeroServe.Ip
