import ZeroServe.CaddyLexer

/-! The segments of a block: the grammar over its tokens and line ends, and the same segments by cutting the tokens at
the line ends outside all braces. -/
namespace ZeroServe.Caddyfile
open CharText

inductive Tok where
  | word (t : Token)
  | open_ (t : Token)
  | close (t : Token)
  | nl
  deriving DecidableEq

def tokOf (t : Token) : Tok :=
  if t.text = ['{'] then .open_ t else if t.text = ['}'] then .close t else .word t

def spanFrom (previous : Token) : List Token → List Tok
  | [] => []
  | t::rest =>
    if isNextOnNewLine previous t then .nl::tokOf t::spanFrom t rest else tokOf t::spanFrom t rest

def toSpanned : List Token → List Tok
  | [] => []
  | t::rest => tokOf t::spanFrom t rest

inductive Symbol where
  | segment | segItems | segItem | block | balanced | balItem
  deriving DecidableEq

inductive Derives : Symbol → List Tok → List Token → Prop where
  | segment {w s v} (rest : Derives .segItems s v) : Derives .segment (.word w::s) (w::v)
  | noItems : Derives .segItems [] []
  | items {s v p u} (items : Derives .segItems s v) (part : Derives .segItem p u) : Derives .segItems (s ++ p) (v ++ u)
  | itemWord {w} : Derives .segItem [.word w] [w]
  | itemBlock {s v} (block : Derives .block s v) : Derives .segItem s v
  | block {o s v c} (inside : Derives .balanced s v) : Derives .block (.open_ o::(s ++ [.close c])) (o::(v ++ [c]))
  | nothing : Derives .balanced [] []
  | balanced {s v p u} (front : Derives .balanced s v) (part : Derives .balItem p u) : Derives .balanced (s ++ p) (v ++ u)
  | balWord {w} : Derives .balItem [.word w] [w]
  | balNl : Derives .balItem [.nl] []
  | balBlock {s v} (block : Derives .block s v) : Derives .balItem s v

inductive Directives : List Tok → List (List Token) → Prop where
  | none : Directives [] []
  | one {s v} (segment : Derives .segment s v) : Directives s [v]
  | more {s ds t v} (front : Directives s ds) (segment : Derives .segment t v) : Directives (s ++ .nl::t) (ds ++ [v])

def ParseSegments (tokens : List Token) (segments : List (List Token)) : Prop := Directives (toSpanned tokens) segments

def nest (lines : Bool) : Nat → Tok → Option Nat
  | n,.word _ => some n
  | n,.open_ _ => some (n + 1)
  | 0,.close _ => none
  | n + 1,.close _ => some n
  | 0,.nl => if lines then some 0 else none
  | n + 1,.nl => some (n + 1)

def level (lines : Bool) : Nat → List Tok → Option Nat
  | n,[] => some n
  | n,t::s => (nest lines n t).bind (level lines · s)

def depth (n : Nat) (t : Tok) : Nat := (nest true n t).getD 0

def cutFrom : Nat → Token → List Token → List Token × List (List Token)
  | _,_,[] => ([],[])
  | n,previous,t::rest =>
    let cut := cutFrom (depth n (tokOf t)) t rest
    if n = 0 && isNextOnNewLine previous t then ([],(t::cut.1)::cut.2) else (t::cut.1,cut.2)

def cutLines : List Token → List (List Token)
  | [] => []
  | t::rest => (t::(cutFrom (depth 0 (tokOf t)) t rest).1)::(cutFrom (depth 0 (tokOf t)) t rest).2

/- Every brace that closes has one that opens, all are closed, and no line outside braces begins with one. -/
def Grouped (tokens : List Token) : Prop :=
  level true 0 (tokens.map tokOf) = some 0 ∧ ∀ segment ∈ cutLines tokens, ∃ t r, segment = t::r ∧ tokOf t = .word t

section

variable (lines : Bool)

theorem levelAppend (n : Nat) (s t) :
    level lines n (s ++ t) = (level lines n s).bind (level lines · t) := by
  induction s generalizing n with
  | nil => rfl
  | cons x s ih =>
    rw [List.cons_append,level,level,Option.bind_assoc]
    exact congrArg _ (funext ih)

def base : Symbol → Nat
  | .balanced => 1
  | .balItem => 1
  | _ => 0

theorem derivesLevel {k s v} (derives : Derives k s v) (lines : Bool) (n : Nat) :
    level lines (n + base k) s = some (n + base k) := by
  induction derives generalizing n with
  | segment rest ih => exact ih n
  | noItems => rfl
  | items items part ihs ih => rw [levelAppend,ihs n]; exact ih n
  | itemWord => rfl
  | itemBlock block ih => exact ih n
  | block inside ih =>
    have inner : level lines (n + 1) _ = some (n + 1) := ih n
    refine (levelAppend lines (n + 1) _ _).trans ?_
    rw [inner]
    rfl
  | nothing => rfl
  | balanced front part ihs ih => rw [levelAppend,ihs n]; exact ih n
  | balWord => rfl
  | balNl => rfl
  | balBlock block ih => exact ih (n + 1)

def Tok.token : Tok → Option Token
  | .word t => some t
  | .open_ t => some t
  | .close t => some t
  | .nl => none

theorem derivesTokens {k s v} (derives : Derives k s v) : s.filterMap Tok.token = v := by
  induction derives with
  | segment rest ih => exact congrArg _ ih
  | items items part ihs ih => rw [List.filterMap_append,ihs,ih]
  | itemBlock block ih => exact ih
  | block inside ih =>
    refine congrArg (_ :: ·) ?_
    rw [List.filterMap_append,ih]
    rfl
  | balanced front part ihs ih => rw [List.filterMap_append,ihs,ih]
  | balBlock block ih => exact ih
  | _ => rfl

theorem levelSnoc {lines : Bool} {n s t j} (done : level lines n (s ++ [t]) = some j) :
    ∃ i, level lines n s = some i ∧ nest lines i t = some j := by
  rw [levelAppend,Option.bind_eq_some_iff] at done
  obtain ⟨i,front,last⟩ := done
  rw [level,Option.bind_eq_some_iff] at last
  obtain ⟨i',step,same⟩ := last
  cases same
  exact ⟨i,front,step⟩

theorem levelOpened {lines : Bool} {n k : Nat} {s} (inside : level lines 0 s = some (n + 1 + k)) :
    ∃ f o m, s = f ++ .open_ o::m ∧ level lines 0 f = some n ∧ level true 0 m = some k := by
  induction s using List.reverseRecOn generalizing k with
  | nil =>
    have zero := Option.some.inj inside
    omega
  | append_singleton s t ih =>
    obtain ⟨j,front,step⟩ := levelSnoc inside
    have grown {i} (deep : j = n + 1 + i) (there : nest true i t = some k) :
        ∃ f o m, s ++ [t] = f ++ .open_ o::m ∧ level lines 0 f = some n ∧ level true 0 m = some k := by
      obtain ⟨f,o,m,rfl,before,behind⟩ := ih (deep ▸ front)
      refine ⟨f,o,m ++ [t],by simp,before,?_⟩
      rw [levelAppend,behind]
      exact (Option.bind_some _ _).trans (by rw [level,there]; rfl)
    cases t with
    | word w => exact grown (Option.some.inj step) rfl
    | open_ o =>
      have deep := Option.some.inj step
      cases k with
      | zero =>
        obtain rfl : j = n := by omega
        exact ⟨s,o,[],rfl,front,rfl⟩
      | succ k => exact grown (by omega) rfl
    | close c =>
      cases j with
      | zero => cases step
      | succ j =>
        have deep := Option.some.inj step
        exact grown (i := k + 1) (by omega) rfl
    | nl =>
      have same : j = n + 1 + k := by
        cases j with
        | zero =>
          cases lines with
          | false => cases step
          | true =>
            have zero := Option.some.inj step
            omega
        | succ j => exact Option.some.inj step
      exact grown same (by cases k <;> rfl)

def list (lines : Bool) : Symbol := if lines then .balanced else .segItems

theorem listWord {s v} (front : Derives (list lines) s v) (w) :
    Derives (list lines) (s ++ [.word w]) (v ++ [w]) := by
  cases lines with
  | false => exact .items front .itemWord
  | true => exact .balanced front .balWord

theorem listBlock {s v b u} (front : Derives (list lines) s v) (block : Derives .block b u) :
    Derives (list lines) (s ++ b) (v ++ u) := by
  cases lines with
  | false => exact .items front (.itemBlock block)
  | true => exact .balanced front (.balBlock block)

theorem levelDerives (s) (closed : level lines 0 s = some 0) : ∃ v, Derives (list lines) s v := by
  induction hn : s.length using Nat.strong_induction_on generalizing lines s with
  | _ n ih =>
    rcases List.eq_nil_or_concat s with rfl | ⟨r,t,rfl⟩
    · cases lines with
      | false => exact ⟨_,.noItems⟩
      | true => exact ⟨_,.nothing⟩
    rw [List.concat_eq_append] at closed hn ⊢
    obtain ⟨j,front,step⟩ := levelSnoc closed
    have shorter : r.length < n := by
      rw [← hn,List.length_append]
      simp
    cases t with
    | word w =>
      cases Option.some.inj step
      obtain ⟨v,derives⟩ := ih r.length shorter lines r front rfl
      exact ⟨_,listWord lines derives w⟩
    | open_ o => cases step
    | nl =>
      cases j with
      | succ j => cases step
      | zero =>
        cases lines with
        | false => cases step
        | true =>
          obtain ⟨v,derives⟩ := ih r.length shorter true r front rfl
          exact ⟨_,.balanced derives .balNl⟩
    | close c =>
      cases j with
      | zero => cases step
      | succ j =>
        cases Option.some.inj step
        obtain ⟨f,o,m,rfl,before,inside⟩ := levelOpened (n := 0) (k := 0) front
        rw [List.length_append,List.length_cons] at shorter
        obtain ⟨v,outer⟩ := ih f.length (by omega) lines f before rfl
        obtain ⟨u,inner⟩ := ih m.length (by omega) true m inside rfl
        refine ⟨v ++ o::(u ++ [c]),?_⟩
        rw [List.append_assoc,List.cons_append]
        exact listBlock lines outer (.block inner)

end

inductive Lines : List Tok → List (List Token) → Prop where
  | last {s v} (segment : Derives .segment s v) : Lines s [v]
  | next {s v t ds} (segment : Derives .segment s v) (later : Lines t ds) : Lines (s ++ .nl::t) (v::ds)

theorem linesSnoc {s ds t v} (front : Lines s ds) (segment : Derives .segment t v) : Lines (s ++ .nl::t) (ds ++ [v]) := by
  induction front with
  | last first => exact .next first (.last segment)
  | next first later ih =>
    rw [List.append_assoc]
    exact .next first ih

theorem directivesLines {s ds} (parsed : Directives s ds) : (s = [] ∧ ds = []) ∨ s.head? = some .nl ∨ Lines s ds := by
  induction parsed with
  | none => exact .inl ⟨rfl,rfl⟩
  | one segment => exact .inr (.inr (.last segment))
  | more front segment ih =>
    rcases ih with empty | leading | lines
    · rw [empty.1]
      exact .inr (.inl rfl)
    · exact .inr (.inl (by rw [List.head?_append,leading]; rfl))
    · exact .inr (.inr (linesSnoc lines segment))

theorem directivesAppend {s ds t es} (front : Directives s ds) (lines : Lines t es) :
    Directives (s ++ .nl::t) (ds ++ es) := by
  induction lines generalizing s ds with
  | last segment => exact .more front segment
  | @next a v b es segment later ih =>
    have whole := ih (.more front segment)
    simpa using whole

theorem linesDirectives {s ds} (lines : Lines s ds) : Directives s ds := by
  cases lines with
  | last segment => exact .one segment
  | next segment later => exact directivesAppend (.one segment) later

def cutStream : Nat → List Tok → List Tok × List (List Tok)
  | _,[] => ([],[])
  | n,t::s =>
    let cut := cutStream (depth n t) s
    if n = 0 ∧ t = .nl then ([],cut.1::cut.2) else (t::cut.1,cut.2)

theorem cutSegment {n s} (closed : level false n s = some 0) (tail) :
    cutStream n (s ++ tail) = (s ++ (cutStream 0 tail).1,(cutStream 0 tail).2) := by
  induction s generalizing n with
  | nil =>
    cases closed
    rfl
  | cons t s ih =>
    rw [level,Option.bind_eq_some_iff] at closed
    obtain ⟨j,step,closed⟩ := closed
    have inside : ¬ (n = 0 ∧ t = .nl) := by
      rintro ⟨rfl,rfl⟩
      cases step
    have same : depth n t = j := by
      cases n <;> cases t <;> first | (cases step; rfl) | cases step
    rw [List.cons_append,cutStream,if_neg inside,same,ih closed]
    rfl

theorem firstLine {n s} (closed : level true n s = some 0) : ∃ t tail, s = t ++ tail ∧ level false n t = some 0 ∧
    (tail = [] ∨ ∃ r, tail = .nl::r ∧ level true 0 r = some 0) := by
  induction s generalizing n with
  | nil =>
    cases closed
    exact ⟨[],[],rfl,rfl,.inl rfl⟩
  | cons x s ih =>
    by_cases ends : n = 0 ∧ x = .nl
    · obtain ⟨rfl,rfl⟩ := ends
      exact ⟨[],.nl::s,rfl,rfl,.inr ⟨s,rfl,closed⟩⟩
    · rw [level,Option.bind_eq_some_iff] at closed
      obtain ⟨j,step,closed⟩ := closed
      obtain ⟨t,tail,rfl,front,rest⟩ := ih closed
      have same : nest false n x = some j := by
        cases n <;> cases x <;> first | exact step | exact absurd ⟨rfl,rfl⟩ ends
      exact ⟨x::t,tail,rfl,by rw [level,same]; exact front,rest⟩

theorem segmentDerives {s v} : Derives .segment s v ↔
    level false 0 s = some 0 ∧ (∃ w r, s = .word w::r) ∧ s.filterMap Tok.token = v := by
  constructor
  · intro derives
    refine ⟨derivesLevel derives false 0,?_,derivesTokens derives⟩
    cases derives
    exact ⟨_,_,rfl⟩
  · rintro ⟨closed,⟨w,r,rfl⟩,rfl⟩
    obtain ⟨v,items⟩ := levelDerives false r closed
    have same := derivesTokens items
    subst same
    exact .segment items

theorem linesExact {s ds} : Lines s ds ↔ level true 0 s = some 0 ∧
    (∀ piece ∈ (cutStream 0 s).1::(cutStream 0 s).2, ∃ w r, piece = .word w::r) ∧
    ds = ((cutStream 0 s).1::(cutStream 0 s).2).map (List.filterMap Tok.token) := by
  constructor
  · intro lines
    induction lines with
    | last segment =>
      obtain ⟨closed,word,rfl⟩ := segmentDerives.mp segment
      have cut := cutSegment closed []
      rw [List.append_nil] at cut
      refine ⟨derivesLevel segment true 0,?_,?_⟩
      · rw [cut]
        simpa [cutStream] using word
      · rw [cut]
        simp [cutStream]
    | @next s v t ds segment later ih =>
      obtain ⟨closed,word,rfl⟩ := segmentDerives.mp segment
      obtain ⟨rest,words,same⟩ := ih
      have cut := cutSegment closed (.nl::t)
      have here : cutStream 0 (.nl::t) = ([],(cutStream 0 t).1::(cutStream 0 t).2) := rfl
      rw [here,List.append_nil] at cut
      refine ⟨?_,?_,?_⟩
      · have level_ : level true 0 s = some 0 := derivesLevel segment true 0
        rw [levelAppend,level_]
        exact rest
      · rw [cut]
        exact List.forall_mem_cons.mpr ⟨word,words⟩
      · rw [cut,same]
        rfl
  · intro good
    induction hn : s.length using Nat.strong_induction_on generalizing s ds with
    | _ n ih =>
      obtain ⟨closed,words,rfl⟩ := good
      obtain ⟨t,tail,rfl,front,rest⟩ := firstLine closed
      rw [cutSegment front] at words ⊢
      rcases rest with rfl | ⟨r,rfl,later⟩
      · have word := words _ List.mem_cons_self
        rw [List.append_nil]
        simp only [cutStream,List.append_nil] at word ⊢
        exact .last (segmentDerives.mpr ⟨front,word,rfl⟩)
      · have here : cutStream 0 (.nl::r) = ([],(cutStream 0 r).1::(cutStream 0 r).2) := rfl
        rw [here,List.append_nil] at words ⊢
        obtain ⟨word,words⟩ := List.forall_mem_cons.mp words
        refine .next (segmentDerives.mpr ⟨front,word,rfl⟩) (ih r.length ?_ ⟨later,words,rfl⟩ rfl)
        rw [← hn,List.length_append,List.length_cons]
        omega

section

theorem tokenOf (t : Token) : (tokOf t).token = some t ∧ tokOf t ≠ .nl := by
  unfold tokOf
  split
  · exact ⟨rfl,Tok.noConfusion⟩
  · split <;> exact ⟨rfl,Tok.noConfusion⟩

variable (n : Nat) (previous : Token)

theorem spanTokens (rest) : (spanFrom previous rest).filterMap Tok.token = rest := by
  induction rest generalizing previous with
  | nil => rfl
  | cons t rest ih =>
    have nl : Tok.nl.token = none := rfl
    rw [spanFrom]
    split <;> simp [nl,(tokenOf t).1,ih]

theorem nestNl : nest true n .nl = some n := by
  cases n <;> rfl

theorem spanLevel (rest) : level true n (spanFrom previous rest) = level true n (rest.map tokOf) := by
  induction rest generalizing n previous with
  | nil => rfl
  | cons t rest ih =>
    have here (n : Nat) : level true n (tokOf t::spanFrom t rest) = level true n (tokOf t::rest.map tokOf) :=
      congrArg ((nest true n (tokOf t)).bind ·) (funext fun j => ih j t)
    rw [spanFrom]
    split
    · rw [level,nestNl]
      exact here n
    · exact here n

theorem spanCut (rest) : cutStream n (spanFrom previous rest) =
    (spanFrom previous (cutFrom n previous rest).1,(cutFrom n previous rest).2.map toSpanned) := by
  induction rest generalizing n previous with
  | nil => rfl
  | cons t rest ih =>
    have here (n : Nat) : cutStream n (tokOf t::spanFrom t rest) =
        (tokOf t::spanFrom t (cutFrom (depth n (tokOf t)) t rest).1,(cutFrom (depth n (tokOf t)) t rest).2.map toSpanned) := by
      rw [cutStream,if_neg fun nl => (tokenOf t).2 nl.2,ih]
    have stays : depth n .nl = n := by rw [depth,nestNl]; rfl
    rw [spanFrom,cutFrom]
    cases line : isNextOnNewLine previous t with
    | false => simp [here,spanFrom,line]
    | true =>
      rw [if_pos rfl,cutStream,stays,here]
      by_cases zero : n = 0
      · simp [zero,spanFrom,toSpanned]
      · simp [zero,spanFrom,line]

theorem cutFlat (rest) :
    (cutFrom n previous rest).1 ++ (cutFrom n previous rest).2.flatten = rest := by
  induction rest generalizing n previous with
  | nil => rfl
  | cons t rest ih =>
    rw [cutFrom]
    split <;> simp [ih]

end

theorem spannedCut (t : Token) (rest) :
    (cutStream 0 (toSpanned (t::rest))).1::(cutStream 0 (toSpanned (t::rest))).2 = (cutLines (t::rest)).map toSpanned := by
  rw [toSpanned,cutStream,if_neg fun nl => (tokenOf t).2 nl.2,spanCut]
  rfl

theorem spannedWord {segment : List Token} :
    (∃ w r, toSpanned segment = .word w::r) ↔ ∃ t r, segment = t::r ∧ tokOf t = .word t := by
  cases segment with
  | nil => simp [toSpanned]
  | cons t rest =>
    constructor
    · rintro ⟨w,r,same⟩
      obtain ⟨first,-⟩ := List.cons.inj same
      have token := (tokenOf t).1
      rw [first] at token
      cases Option.some.inj token
      exact ⟨t,rest,rfl,first⟩
    · rintro ⟨t',rest',same,word⟩
      cases same
      exact ⟨t,spanFrom t rest,by rw [toSpanned,word]⟩

theorem segmentsExact (tokens : List Token) : (cutLines tokens).flatten = tokens ∧
    ∀ segments, ParseSegments tokens segments ↔ Grouped tokens ∧ segments = cutLines tokens := by
  cases tokens with
  | nil =>
    refine ⟨rfl,fun segments => ⟨fun parsed => ?_,?_⟩⟩
    · rcases directivesLines parsed with empty | leading | lines
      · exact ⟨⟨rfl,nofun⟩,empty.2⟩
      · cases leading
      · obtain ⟨w,r,same⟩ := (linesExact.mp lines).2.1 [] List.mem_cons_self
        cases same
    · rintro ⟨-,rfl⟩
      exact .none
  | cons t rest =>
    refine ⟨congrArg (t :: ·) (cutFlat _ t rest),fun segments => ?_⟩
    have parsed : ParseSegments (t::rest) segments ↔ Lines (toSpanned (t::rest)) segments := by
      refine ⟨fun parsed => ?_,linesDirectives⟩
      rcases directivesLines parsed with empty | leading | lines
      · cases empty.1
      · exact absurd (Option.some.inj leading) (tokenOf t).2
      · exact lines
    have levels : level true 0 (toSpanned (t::rest)) = level true 0 ((t::rest).map tokOf) :=
      congrArg ((nest true 0 (tokOf t)).bind ·) (funext fun j => spanLevel j t rest)
    have back : (List.filterMap Tok.token) ∘ toSpanned = id := by
      funext segment
      cases segment with
      | nil => rfl
      | cons t rest => simp [toSpanned,(tokenOf t).1,spanTokens]
    rw [parsed,linesExact,spannedCut,levels,List.map_map,back,List.map_id,Grouped,and_assoc]
    simp only [List.forall_mem_map,spannedWord]

end ZeroServe.Caddyfile
