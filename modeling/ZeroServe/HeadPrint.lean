import ZeroServe.HeadRead
import ZeroServe.RequestFraming

/-! A printed request head is read back: nothing in a name, a value or the request line can end a line early, so every
line is cut where it was printed. -/
namespace ZeroServe.H1
open ByteText ByteSource

theorem findSkip {b} (pat : Bytes) {line} (rest : Bytes) (absent : b ∉ line) :
    find (b::pat) (line ++ rest) = (find (b::pat) rest).map (· + line.length) := by
  induction line with
  | nil => simp
  | cons a line ih =>
    rw [List.mem_cons,not_or] at absent
    have away : (b::pat).isPrefixOf (a::(line ++ rest)) = false := by
      simp [List.isPrefixOf,absent.1]
    rw [List.cons_append,findCons,away,ih absent.2]
    simp

theorem findLineEnd {b} (more : Bytes) (other : b ≠ 13) :
    find blankLine (crlf ++ b::more) = (find blankLine (b::more)).map (· + 2) := by
  have first : blankLine.isPrefixOf (13::10::b::more) = false := by
    simp [blankLine,crlf,List.isPrefixOf,other.symm]
  have second : blankLine.isPrefixOf (10::b::more) = false := by
    simp [blankLine,crlf,List.isPrefixOf]
  rw [show crlf ++ b::more = 13::10::b::more from rfl,findCons,first,findCons,second]
  simp [Function.comp_def]

theorem blankFound {first lines} (rest : Bytes) (proper : ∀ l ∈ first::lines, l ≠ [] ∧ (13 : UInt8) ∉ l) :
    find blankLine (crlf.intercalate (first::lines) ++ blankLine ++ rest) =
      some (crlf.intercalate (first::lines)).length := by
  induction lines generalizing first with
  | nil =>
    have start : find blankLine (blankLine ++ rest) = some 0 := by
      simp [blankLine,crlf,find]
    rw [List.intercalate_singleton,List.append_assoc,blankLine,crlf]
    rw [blankLine,crlf] at start
    simp only [List.cons_append,List.nil_append] at start ⊢
    rw [findSkip [10,13,10] _ (proper first (by simp)).2,start]
    simp
  | cons next lines ih =>
    have later := @ih next fun l mem => proper l (List.mem_cons_of_mem _ mem)
    obtain ⟨given,absent⟩ := proper next (by simp)
    obtain ⟨t,shape⟩ : ∃ t, crlf.intercalate (next::lines) = next ++ t := by
      cases lines with
      | nil => exact ⟨[],by simp⟩
      | cons l ls => exact ⟨_,by rw [List.intercalate_cons_cons,List.append_assoc]⟩
    obtain ⟨b,front,rfl⟩ := List.exists_cons_of_ne_nil given
    have other : b ≠ 13 := fun same => absent (by simp [same])
    obtain ⟨more,begins⟩ : ∃ more, crlf.intercalate ((b::front)::lines) ++ blankLine ++ rest = b::more :=
      ⟨front ++ t ++ blankLine ++ rest,by rw [shape]; simp⟩
    have skip := findSkip [10,13,10] (crlf ++ (b::more)) (proper first (by simp)).2
    rw [List.intercalate_cons_cons,List.append_assoc,List.append_assoc,List.append_assoc,
      ← List.append_assoc _ blankLine,begins,show blankLine = 13::[10,13,10] from rfl,skip,
      show (13::[10,13,10] : Bytes) = blankLine from rfl,findLineEnd more other,← begins,later]
    simp [crlf]
    omega

theorem splitJoined {first lines} (free : ∀ l ∈ first::lines, CrlfFree l) :
    splitCrlf (crlf.intercalate (first::lines)) = first::lines := by
  induction lines generalizing first with
  | nil =>
    rw [List.intercalate_singleton]
    exact free first (by simp)
  | cons next lines ih =>
    rw [List.intercalate_cons_cons,splitCrlfLine _ (free first (by simp)),
      ih fun l mem => free l (List.mem_cons_of_mem _ mem)]

theorem wordTaken {word} (filled : word ≠ []) (solid : ∀ b ∈ word, asciiWhitespace b = false) (rest : Bytes)
    (cut : rest.head?.all asciiWhitespace = true) : splitAsciiWord (word ++ rest) = some (word,rest) := by
  obtain ⟨b,more,rfl⟩ := List.exists_cons_of_ne_nil filled
  have kept : trimAsciiStart (b::more ++ rest) = b::more ++ rest := by
    simp [trimAsciiStart,solid b (by simp)]
  have stop : rest.takeWhile (! asciiWhitespace ·) = [] ∧ rest.dropWhile (! asciiWhitespace ·) = rest := by
    cases rest with
    | nil => exact ⟨rfl,rfl⟩
    | cons a rest =>
      have blank : asciiWhitespace a = true := by simpa using cut
      simp [blank]
  have solid' : ∀ a ∈ b::more, (! asciiWhitespace a) = true := fun a mem => by simp [solid a mem]
  rw [splitAsciiWord,kept,List.takeWhile_append_of_pos solid',List.dropWhile_append_of_pos solid',stop.1,stop.2]
  simp

theorem wordAfterBlank (text : Bytes) : splitAsciiWord (32::text) = splitAsciiWord text := by
  have blank : trimAsciiStart (32::text) = trimAsciiStart text := by
    simp [trimAsciiStart,asciiWhitespace]
  rw [splitAsciiWord,splitAsciiWord,blank]

def Unpadded (v : HeaderValue) : Prop :=
  ∀ b, v.bytes.head? = some b ∨ v.bytes.getLast? = some b → b ≠ 32 ∧ b ≠ 9

theorem unpaddedTrim {v} (unpadded : Unpadded v) : trimAscii v.bytes = v.bytes := by
  have solid : ∀ b : UInt8, valueByte b = true → b ≠ 32 ∧ b ≠ 9 → asciiWhitespace b = false := by decide +kernel
  have ends (b : UInt8) (place : v.bytes.head? = some b ∨ v.bytes.getLast? = some b) : asciiWhitespace b = false := by
    refine solid b (valueBytes v b ?_) (unpadded b place)
    exact place.elim List.mem_of_mem_head? List.mem_of_mem_getLast?
  have front : trimAsciiStart v.bytes = v.bytes := by
    cases text : v.bytes with
    | nil => rfl
    | cons b rest => simp [trimAsciiStart,ends b (by simp [text])]
  rw [trimAscii,front,List.rdropWhile_eq_self_iff]
  intro given
  rw [ends _ (.inr (List.getLast?_eq_some_getLast given))]
  exact Bool.false_ne_true

def fieldText (f : HeaderName × HeaderValue) : Bytes := f.1.text ++ [58,32] ++ f.2.bytes

theorem nameRead (name : HeaderName) : trimAscii name.text = name.text ∧ name.text ≠ [] ∧
    HeaderName.fromBytes name.text = some name := by
  have solid : ∀ b : UInt8, tokenByte b = true → asciiWhitespace b = false := by decide +kernel
  refine ⟨trimAsciiNone fun b mem => solid b (nameBytes name b mem),?_,?_⟩
  · have valid := name.valid
    simp only [headerNameText,Bool.and_eq_true,bne_iff_ne] at valid
    exact valid.1.1
  · have same := nameLower name
    rw [HeaderName.fromBytes,dif_pos (by rw [same]; exact name.valid)]
    exact congrArg some (nameExt same)

theorem fieldsRead {fields} (acc : HeaderMap) (unpadded : ∀ f ∈ fields, Unpadded f.2) :
    readFields trimAscii acc (fields.map fieldText) = .ok ⟨acc.pairs ++ fields⟩ := by
  induction fields generalizing acc with
  | nil => simp [readFields]
  | cons f fields ih =>
    obtain ⟨trimmed,given,read⟩ := nameRead f.1
    have full : fieldText f ≠ [] := by simp [fieldText]
    have cut : splitOnce 58 (fieldText f) = some (f.1.text,32::f.2.bytes) := by
      have colon := splitOnceAppend (32::f.2.bytes) (headerFieldProper f).1
      simpa [fieldText] using colon
    have blank : trimAscii (32::f.2.bytes) = f.2.bytes := by
      exact unpaddedTrim (unpadded f (by simp))
    have value : HeaderValue.fromBytes f.2.bytes = some f.2 := dif_pos f.2.valid
    rw [List.map_cons,readFields,if_neg full,cut]
    dsimp only
    rw [trimmed,if_neg given,read,blank,value]
    dsimp only
    rw [ih _ fun g mem => unpadded g (List.mem_cons_of_mem _ mem)]
    simp [FieldMap.append]

def headText (head : RequestHead) : Bytes :=
  crlf.intercalate (requestLine head::head.headers.pairs.map fieldText)

theorem joinedLines (first : Bytes) (lines : List Bytes) :
    crlf.intercalate (first::lines) ++ crlf = first ++ crlf ++ lines.flatMap (· ++ crlf) := by
  induction lines generalizing first with
  | nil => simp
  | cons next lines ih =>
    rw [List.intercalate_cons_cons,List.append_assoc,ih,List.flatMap_cons]

variable (head : RequestHead)

theorem encodeIsText : encodeRequestHead head = headText head ++ blankLine := by
  have joined := joinedLines (requestLine head) (head.headers.pairs.map fieldText)
  rw [List.flatMap_map] at joined
  rw [headText,blankLine,← List.append_assoc,joined]
  rfl

theorem headTextProper :
    ∀ l ∈ requestLine head::head.headers.pairs.map fieldText, l ≠ [] ∧ (13 : UInt8) ∉ l := by
  intro l mem
  rcases List.mem_cons.mp mem with rfl | field
  · exact requestLineProper head
  · obtain ⟨f,_,rfl⟩ := List.mem_map.mp field
    obtain ⟨_,name,value⟩ := headerFieldProper f
    exact ⟨by simp [fieldText],by simp [fieldText,name,value]⟩

theorem headTextFound (rest : Bytes) :
    find blankLine (encodeRequestHead head ++ rest) = some (headText head).length := by
  rw [encodeIsText]
  exact blankFound rest (headTextProper head)

theorem headTextLines :
    splitCrlf (headText head) = requestLine head::head.headers.pairs.map fieldText :=
  splitJoined fun l mem => crlfFreeOfNoCr (headTextProper head l mem).2

/- A URI value of the `http` crate in origin or absolute form: its text is UTF-8, and the crate
parses it to a URI with that text. -/
structure HttpUri (parseUri : Bytes → Option Uri) (u : Uri) : Prop where
  form : u.path.head? = some 47 ∧ (u.scheme.isSome = u.authority.isSome)
  text : validUtf8 u.toString = true
  parsed : ∃ v, parseUri u.toString = some v ∧ v.toString = u.toString

theorem requestLineRead (filled : head.uri.toString ≠ []) : ∃ afterMethod afterUri,
    splitAsciiWord (requestLine head) = some (head.method.text,afterMethod) ∧
    splitAsciiWord afterMethod = some (head.uri.toString,afterUri) ∧
    splitAsciiWord afterUri = some (versionBytes head.version,[]) := by
  have token : ∀ b : UInt8, tokenByte b = true → asciiWhitespace b = false := by decide +kernel
  have visible : ∀ b : UInt8, 32 < b → asciiWhitespace b = false := by decide +kernel
  have method := head.method.valid
  simp only [methodText,Bool.and_eq_true,bne_iff_ne,List.all_eq_true] at method
  have uri : ∀ b ∈ head.uri.toString, asciiWhitespace b = false := fun b mem =>
    visible b (of_decide_eq_true (List.all_eq_true.mp head.uri.valid b mem))
  have version : versionBytes head.version ≠ [] ∧ ∀ b ∈ versionBytes head.version, asciiWhitespace b = false := by
    have solid : ∀ v, (versionBytes v).all (! asciiWhitespace ·) = true := by
      intro v
      cases v <;> decide +kernel
    refine ⟨by cases head.version <;> decide,fun b mem => ?_⟩
    simpa using List.all_eq_true.mp (solid head.version) b mem
  refine ⟨32::(head.uri.toString ++ 32::versionBytes head.version),32::versionBytes head.version,?_,?_,?_⟩
  · have first := wordTaken method.1 (fun b mem => token b (method.2 b mem))
      (32::(head.uri.toString ++ 32::versionBytes head.version)) rfl
    simpa [requestLine] using first
  · rw [wordAfterBlank]
    exact wordTaken filled uri _ rfl
  · have last := wordTaken version.1 version.2 [] rfl
    rw [List.append_nil] at last
    rw [wordAfterBlank,last]

theorem textParsed {parseUri : Bytes → Option Uri} {head} (uri : HttpUri parseUri head.uri)
    (version : head.version = .http10 ∨ head.version = .http11) (cookies : (head.headers.getAll .cookie).length ≤ 1)
    (values : ∀ f ∈ head.headers.pairs, Unpadded f.2) :
    ∃ u, parseRequestHead parseUri (headText head) = .ok {head with uri := u} ∧
      u.toString = head.uri.toString := by
  obtain ⟨u,parsed,same⟩ := uri.parsed
  have filled : head.uri.toString ≠ [] := by
    intro empty
    have led := uri.form.1
    simp only [Uri.toString,uriText,List.append_eq_nil_iff] at empty
    rw [empty.1.2] at led
    cases led
  obtain ⟨afterMethod,afterUri,first,second,third⟩ := requestLineRead head filled
  have method : Method.fromBytes head.method.text = some head.method := dif_pos head.method.valid
  have number : parseVersion (versionBytes head.version) = some head.version := by
    rcases version with v | v <;> rw [v] <;> decide +kernel
  have fields : parseHeadersBytes (head.headers.pairs.map fieldText) = .ok head.headers :=
    fieldsRead .empty values
  have single : normalizeCookieHeaders head.headers = head.headers := by
    unfold normalizeCookieHeaders
    split
    · rename_i many
      rw [many] at cookies
      simp at cookies
    · rfl
  refine ⟨u,?_,same⟩
  simp only [parseRequestHead,startLine,headerLines,headTextLines,List.headD_cons,List.tail_cons,first,second,third,
    orInvalid,bind,Except.bind,method,uri.text,parsed,number,fields,single]
  rfl

theorem printedHeadRead {parseUri : Bytes → Option Uri} {head : RequestHead} {c : Conn} {suffix : Bytes}
    (uri : HttpUri parseUri head.uri) (version : head.version = .http10 ∨ head.version = .http11)
    (cookies : (head.headers.getAll .cookie).length ≤ 1) (values : ∀ f ∈ head.headers.pairs, Unpadded f.2)
    (small : (encodeRequestHead head).length ≤ maxHeaderSize) (steady : Steady c.io)
    (stream : c.unread = encodeRequestHead head ++ suffix) :
    ∃ raw c' read, readHeaders c = (.ok (some raw),c') ∧ c'.unread = suffix ∧
      parseRequestHead parseUri raw = .ok read ∧ read.method = head.method ∧
      read.uri.toString = head.uri.toString ∧ read.version = head.version ∧
      ∀ name, read.headers.getAll name = head.headers.getAll name := by
  obtain ⟨u,parsed,same⟩ := textParsed uri version cookies values
  have size : (encodeRequestHead head).length = (headText head).length + 4 := by
    rw [encodeIsText,List.length_append]
    rfl
  obtain ⟨c',read,left⟩ := headTaken steady (stream ▸ headTextFound head suffix) (by omega)
  rw [stream,← size,List.drop_left] at left
  rw [stream,encodeIsText,List.append_assoc,List.take_left] at read
  exact ⟨_,c',_,read,left,parsed,rfl,same,rfl,fun _ => rfl⟩

def oddHead : RequestHead where
  method := .get
  uri := Proxy.rootUri
  version := .http10
  headers := ⟨[(.host,.ofAscii "a:80"),(.etag,.ofAscii ""),(.cookie,.ofAscii "k=1; l=2"),
    (.etag,.ofAscii "GET / HTTP/1.1: x")]⟩

theorem oddHeadRead : ∃ raw c' read,
    readHeaders (dripped (encodeRequestHead oddHead ++ ascii "\r\n\r\nrest")) = (.ok (some raw),c') ∧
      c'.unread = ascii "\r\n\r\nrest" ∧ parseRequestHead Proxy.onlyRoot raw = .ok read ∧
      read.method = oddHead.method ∧ read.uri.toString = oddHead.uri.toString ∧
      read.version = oddHead.version ∧ ∀ name, read.headers.getAll name = oddHead.headers.getAll name := by
  refine printedHeadRead ⟨⟨rfl,rfl⟩,by decide +kernel,Proxy.rootUri,rfl,rfl⟩ (.inl rfl) (by decide +kernel) ?_
    (by decide +kernel) (drippedDrip _).drips.steady rfl
  unfold Unpadded
  decide +kernel

end ZeroServe.H1
