import ZeroServe.BinarySearch
import ZeroServe.CQuote
import ZeroServe.HostCheck

/-! The table of exact hosts in a generated middleware: hosts are interned while the routes
are compiled, printed in the order of their bytes, and searched by halving in C. -/
namespace ZeroServe.HostDispatch
open ByteText CSource CQuote Host BinarySearch

def Exact (host : Bytes) : Prop := lower host = host ∧ 42 ∉ host

def Before (a b : Bytes) : Prop := compare a b = .lt
instance (a b : Bytes) : Decidable (Before a b) := inferInstanceAs (Decidable (_ = _))

structure HostTable where
  entries : List (Bytes × Nat)
  sorted : (entries.map Prod.fst).Pairwise Before
  ids : (entries.map Prod.snd).Nodup
  known : ∀ e ∈ entries, e.2 < entries.length
  literal : ∀ e ∈ entries, Exact e.1

namespace HostTable

def empty : HostTable := ⟨[],.nil,.nil,by simp,by simp⟩

def hosts (table : HostTable) : List Bytes := table.entries.map Prod.fst

def place (host : Bytes) (id : Nat) (entries : List (Bytes × Nat)) : List (Bytes × Nat) :=
  entries.takeWhile (fun e => Before e.1 host) ++ (host,id)::entries.dropWhile (fun e => Before e.1 host)

theorem placePerm (host : Bytes) (id : Nat) (entries : List (Bytes × Nat)) :
    (place host id entries).Perm ((host,id)::entries) := by
  have whole := List.takeWhile_append_dropWhile (p := fun e : Bytes × Nat => decide (Before e.1 host)) (l := entries)
  conv_rhs => rw [← whole]
  exact List.perm_middle

theorem placeSorted {host entries} (id : Nat) (sorted : (entries.map Prod.fst).Pairwise Before)
    (new : host ∉ entries.map Prod.fst) : ((place host id entries).map Prod.fst).Pairwise Before := by
  induction entries with
  | nil => simp [place]
  | cons e later ih =>
    rw [List.map_cons,List.pairwise_cons] at sorted
    rw [List.map_cons,List.mem_cons,not_or] at new
    by_cases less : Before e.1 host
    · have shape : place host id (e::later) = e::place host id later := by
        simp [place,less]
      rw [shape,List.map_cons,List.pairwise_cons]
      refine ⟨fun h mem => ?_,ih sorted.2 new.2⟩
      have inside := ((placePerm host id later).map Prod.fst).mem_iff.mp mem
      rcases List.mem_cons.mp inside with rfl | old
      · exact less
      · exact sorted.1 h old
    · have shape : place host id (e::later) = (host,id)::e::later := by
        simp [place,less]
      have first : Before host e.1 := by
        cases order : compare e.1 host with
        | lt => exact absurd order less
        | eq => exact absurd (Std.compare_eq_iff_eq.mp order).symm new.1
        | gt => exact Std.OrientedCmp.gt_iff_lt.mp order
      rw [shape,List.map_cons,List.pairwise_cons,List.map_cons,List.pairwise_cons]
      refine ⟨fun h mem => ?_,sorted⟩
      rcases List.mem_cons.mp mem with rfl | old
      · exact first
      · exact Std.TransCmp.lt_trans first (sorted.1 h old)

def insert (table : HostTable) (host : Bytes) (ok : Exact host) (new : host ∉ table.hosts) : HostTable where
  entries := place host table.entries.length table.entries
  sorted := placeSorted _ table.sorted new
  ids := by
    rw [((placePerm _ _ _).map Prod.snd).nodup_iff,List.map_cons,List.nodup_cons]
    refine ⟨fun mem => ?_,table.ids⟩
    obtain ⟨e,inside,same⟩ := List.mem_map.mp mem
    have := table.known e inside
    omega
  known := by
    intro e mem
    rw [(placePerm _ _ _).length_eq,List.length_cons]
    rcases List.mem_cons.mp ((placePerm _ _ _).mem_iff.mp mem) with rfl | old
    · exact Nat.lt_succ_self _
    · exact Nat.lt_succ_of_lt (table.known e old)
  literal := by
    intro e mem
    rcases List.mem_cons.mp ((placePerm _ _ _).mem_iff.mp mem) with rfl | old
    · exact ok
    · exact table.literal e old

def hostTableId (table : HostTable) (host : Bytes) (ok : Exact host) : HostTable × Nat :=
  match found : table.entries.find? (·.1 == host) with
  | some e => (table,e.2)
  | none => (table.insert host ok (by
      intro mem
      obtain ⟨e,inside,same⟩ := List.mem_map.mp mem
      exact List.find?_eq_none.mp found e inside (by simpa using same)),table.entries.length)

theorem interned (table : HostTable) (host : Bytes) (ok : Exact host) :
    table.entries ⊆ (table.hostTableId host ok).1.entries ∧
      (host,(table.hostTableId host ok).2) ∈ (table.hostTableId host ok).1.entries := by
  unfold hostTableId
  split
  · rename_i e found
    refine ⟨List.Subset.refl _,?_⟩
    have same : e.1 = host := by simpa using List.find?_some found
    rw [← same]
    exact List.mem_of_find?_eq_some found
  · have all := placePerm host table.entries.length table.entries
    exact ⟨fun e mem => all.mem_iff.mpr (List.mem_cons_of_mem _ mem),all.mem_iff.mpr List.mem_cons_self⟩

def zsHostId (table : HostTable) (id : Nat) : Nat := table.entries.findIdx (·.2 == id)

theorem hostId {table : HostTable} {host : Bytes} {id} (mem : (host,id) ∈ table.entries) :
    table.zsHostId id < table.hosts.length ∧ table.hosts[table.zsHostId id]? = some host := by
  have inside : table.zsHostId id < table.entries.length :=
    List.findIdx_lt_length_of_exists ⟨(host,id),mem,by simp⟩
  have named : table.entries[table.zsHostId id].2 = id := by
    have hit := List.findIdx_getElem (p := fun e : Bytes × Nat => e.2 == id) (w := inside)
    exact eq_of_beq hit
  have same :=
    List.inj_on_of_nodup_map table.ids (List.getElem_mem inside) mem named
  refine ⟨by simpa [hosts] using inside,?_⟩
  rw [hosts,List.getElem?_map,List.getElem?_eq_getElem inside,same]
  rfl

end HostTable
def packed (hosts : List Bytes) : Bytes := hosts.flatMap (· ++ [0])

def offsetsFrom : Nat → List Bytes → List Nat
  | start,[] => [start]
  | start,host::later => start::offsetsFrom (start + host.length + 1) later

def renderHosts (hosts : List Bytes) : Bytes :=
  hosts.flatMap fun host => ascii "    " ++ cStr (host ++ [0]) ++ [10]

/- The printed table as C has it: an array from a string has a byte more, and the offsets are
of type `unsigned int`. -/
structure Printed where
  tbl : Bytes
  off : List UInt32
  n : Nat
  deriving DecidableEq

def renderHostTable (table : HostTable) : Printed where
  tbl := packed table.hosts ++ [0]
  off := (offsetsFrom 0 table.hosts).map UInt32.ofNat
  n := table.entries.length

def readInitializer (source : Bytes) : Option (Bytes × Bytes) :=
  (nextString (splice source)).map fun r => joinFollowing r.2.length r

theorem nextBlank {b} (blank : whiteSpace b = true) (s : Bytes) : nextString (b::s) = nextString s := by
  have other : b ≠ 47 := by
    rintro rfl
    cases blank
  rw [nextString,nextString,skipBlanks.eq_3,if_pos blank]
  · intro rest same
    exact absurd same other
  · intro rest same
    exact absurd same other

theorem renderLine (host t : Bytes) : splice (ascii "    " ++ cStr (host ++ [0]) ++ [10] ++ t) =
    ascii "    " ++ cStr (host ++ [0]) ++ 10::splice t := by
  have blanks : ascii "    " = [32,32,32,32] := by decide
  have line : splice (10::t) = 10::splice t := spliceCons (by simp)
  rw [blanks,List.append_assoc]
  simp only [List.cons_append,List.nil_append]
  rw [spliceCons (by simp),spliceCons (by simp),spliceCons (by simp),spliceCons (by simp),spliceCStr,line]

theorem nextLine (host t : Bytes) : nextString (ascii "    " ++ cStr (host ++ [0]) ++ t) = some (host ++ [0],t) := by
  rw [List.append_assoc]
  rw [cStr,List.append_assoc]
  exact readCBytes (host ++ [0]) t

theorem renderSplice (hosts : List Bytes) (rest : Bytes) :
    splice (renderHosts hosts ++ rest) = renderHosts hosts ++ splice rest := by
  induction hosts with
  | nil => rfl
  | cons host later ih =>
    have shape : renderHosts (host::later) = ascii "    " ++ cStr (host ++ [0]) ++ [10] ++ renderHosts later := by
      simp [renderHosts]
    rw [shape,List.append_assoc _ (renderHosts later),renderLine,ih]
    simp

theorem joinHosts (hosts : List Bytes) (rest value : Bytes) {fuel} (enough : hosts.length ≤ fuel) :
    joinFollowing fuel (value,10::(renderHosts hosts ++ 59::rest)) = (value ++ packed hosts,10::59::rest) := by
  induction hosts generalizing fuel value with
  | nil =>
    have empty : nextString (10::59::rest) = none := by
      rfl
    cases fuel with
    | zero => simp [joinFollowing,packed,renderHosts]
    | succ fuel => simp [joinFollowing,packed,renderHosts,empty]
  | cons host later ih =>
    obtain ⟨k,rfl⟩ : ∃ k, fuel = k + 1 := ⟨fuel - 1,by simp at enough; omega⟩
    have shape : renderHosts (host::later) ++ 59::rest =
        ascii "    " ++ cStr (host ++ [0]) ++ 10::(renderHosts later ++ 59::rest) := by
      simp [renderHosts]
    rw [joinFollowing,nextBlank (by decide),shape,nextLine]
    dsimp only
    rw [ih (value ++ (host ++ [0])) (by simpa using enough)]
    simp [packed]

theorem renderedRead {hosts} (filled : hosts ≠ []) (rest : Bytes) :
    readInitializer (renderHosts hosts ++ 59::rest) = some (packed hosts,10::59::splice rest) := by
  obtain ⟨host,later,rfl⟩ := List.exists_cons_of_ne_nil filled
  have stop : splice (59::rest) = 59::splice rest := spliceCons (by simp)
  have shape : renderHosts (host::later) ++ 59::splice rest =
      ascii "    " ++ cStr (host ++ [0]) ++ 10::(renderHosts later ++ 59::splice rest) := by
    simp [renderHosts]
  have long : later.length ≤ (10::(renderHosts later ++ 59::splice rest)).length := by
    have each : later.length ≤ (renderHosts later).length := by
      rw [renderHosts,List.length_flatMap]
      refine (by simp : later.length = (later.map fun _ => 1).sum) ▸ List.sum_le_sum fun h _ => ?_
      simp only [List.length_append,List.length_singleton]
      omega
    simp only [List.length_cons,List.length_append]
    omega
  rw [readInitializer,renderSplice,stop,shape,nextLine,Option.map_some,joinHosts later _ _ long]
  simp [packed]

def hostCompare (host cand : Bytes) : Ordering :=
  match (host.zip cand).find? (fun p => p.1 != p.2) with
  | some (a,b) => if a < b then .lt else .gt
  | none => if host.length = cand.length then .eq else if host.length < cand.length then .lt else .gt

theorem compareByte (a b : UInt8) : compare a b = if a = b then .eq else if a < b then .lt else .gt := by
  have order : compare a b = if a < b then .lt else if a = b then .eq else .gt := rfl
  rw [order]
  by_cases same : a = b
  · rw [if_pos same,if_neg (same ▸ UInt8.lt_irrefl _),if_pos same]
  · rw [if_neg same,if_neg same]

theorem hostCompareIs (host cand : Bytes) : hostCompare host cand = compare host cand := by
  induction host generalizing cand with
  | nil => cases cand <;> rfl
  | cons a host ih =>
    cases cand with
    | nil => rfl
    | cons b cand =>
      rw [List.compare_cons_cons,compareByte]
      by_cases same : a = b
      · rw [← ih cand]
        simp [hostCompare,same]
      · rw [if_neg same]
        simp only [hostCompare,List.zip_cons_cons,List.find?_cons,bne_iff_ne.mpr same]
        split <;> rfl

def Printed.entry (p : Printed) (mid : Nat) : Bytes :=
  let start := p.off[mid]?.getD 0
  let candLen := p.off[mid + 1]?.getD 0 - start - 1
  (p.tbl.drop start.toNat).take candLen.toNat

def zsCaddyHostTableLookup (host : Bytes) (p : Printed) : Int :=
  search (fun mid => hostCompare host (p.entry mid)) (p.n + 1) 0 (p.n - 1)

theorem offsetAt {hosts i} (start : Nat) (within : i ≤ hosts.length) :
    (offsetsFrom start hosts)[i]? = some (start + (packed (hosts.take i)).length) := by
  induction hosts generalizing start i with
  | nil =>
    cases Nat.le_zero.mp within
    simp [offsetsFrom,packed]
  | cons host later ih =>
    cases i with
    | zero => simp [offsetsFrom,packed]
    | succ i =>
      have inner := ih (start + host.length + 1) (Nat.le_of_succ_le_succ within)
      rw [offsetsFrom,List.getElem?_cons_succ,inner]
      simp [packed]
      omega

theorem packedAppend (a b : List Bytes) : packed (a ++ b) = packed a ++ packed b := List.flatMap_append

theorem packedCons (host : Bytes) (later : List Bytes) : packed (host::later) = host ++ 0::packed later := by
  simp [packed]

theorem packedAt {hosts i} (within : i < hosts.length) : packed hosts =
    packed (hosts.take i) ++ hosts[i] ++ 0::packed (hosts.drop (i + 1)) := by
  have cut : hosts.take i ++ hosts[i]::hosts.drop (i + 1) = hosts := by simp
  have whole := congrArg packed cut
  rw [packedAppend,packedCons] at whole
  rw [← whole,List.append_assoc]

def Reachable (table : HostTable) : Prop := (packed table.hosts).length < 2 ^ 32

theorem entryIs {table} (reachable : Reachable table) {i} (within : i < table.hosts.length) :
    (renderHostTable table).entry i = table.hosts[i] := by
  have shape := packedAt within
  have next : (packed (table.hosts.take (i + 1))).length =
      (packed (table.hosts.take i)).length + table.hosts[i].length + 1 := by
    rw [List.take_succ_eq_append_getElem within,packedAppend,packedCons]
    simp only [List.length_append,List.length_cons,packed,List.flatMap_nil,List.length_nil]
    omega
  have size := congrArg List.length shape
  simp only [List.length_append] at size
  unfold Reachable at reachable
  generalize before : (packed (table.hosts.take i)).length = start at next size
  have first : (renderHostTable table).off[i]? = some (UInt32.ofNat start) := by
    rw [renderHostTable,List.getElem?_map,offsetAt 0 within.le,Nat.zero_add,before]
    rfl
  have second : (renderHostTable table).off[i + 1]? = some (UInt32.ofNat (start + table.hosts[i].length + 1)) := by
    rw [renderHostTable,List.getElem?_map,offsetAt 0 within,Nat.zero_add,next]
    rfl
  have length : (UInt32.ofNat (start + table.hosts[i].length + 1) - UInt32.ofNat start - 1).toNat =
      table.hosts[i].length := by
    simp only [UInt32.toNat_sub,UInt32.toNat_ofNat',UInt32.toNat_one]
    omega
  have place : (UInt32.ofNat start).toNat = start := by
    rw [UInt32.toNat_ofNat']
    omega
  rw [Printed.entry,first,second]
  dsimp only [Option.getD_some]
  rw [length,place,renderHostTable,shape,List.append_assoc,List.append_assoc,← before,List.drop_left, List.take_left]

end ZeroServe.HostDispatch
