import TAlib.Cache.Freshness
import TAlib.Http.Conversation

/-!
The static server of example/static_server_example.cpp: an HttpServer whose
callback is staticRequest, which answers with files and keeps their contents in the
cache of getCache. All connections share the cache, so what one of them asks for
decides what another is answered from. Nothing of that shows: every request gets the
page that the file on the disk makes, as if there were no cache.
-/

namespace TAlib

open Foundation

/-- What the system says of a file name: stat fails; the file can be mapped; or
stat succeeds and mmap does not, as of a directory, with the size from stat. -/
inductive FileAt where
  | absent
  | mapped (content : Bytes)
  | unmapped (size : Nat)
  deriving DecidableEq, Repr

/-- How staticRequest ends the process. -/
inductive StaticStop where
  | fault (f : Fault)
  /-- The string is made from MAP_FAILED. -/
  | mapFailed
  /-- std::length_error from the constructor of the string. -/
  | lengthError
  /-- std::out_of_range from substr. -/
  | outOfRange
  deriving DecidableEq, Repr

/-- A fault inside a call ends the caller too. -/
def stopWith {α : Type} (c : Except Fault α) : Except StaticStop α := c.mapError .fault

theorem stopWith_ok {α : Type} {c : Except Fault α} {a : α} : stopWith c = .ok a ↔ c = .ok a := by
  cases c with
  | error f => simp [stopWith, Except.mapError]
  | ok b => simp [stopWith, Except.mapError]

namespace FileAt

/-- st_size, if stat returns 0. -/
def size : FileAt → Option Nat
  | absent => none
  | mapped content => some content.length
  | unmapped size => some size

/-- `string(src_addr, size)` behind the mmap of that many bytes. -/
def read (f : FileAt) (size : Int) : Except StaticStop Bytes :=
  if size < 0 then .error .lengthError
  else if size = 0 then .ok []
  else
    match f with
    | mapped content => .ok (content.take size.toNat)
    | absent | unmapped _ => .error .mapFailed

end FileAt

namespace Mimetype

/-- What init enters into the map. -/
def mime : List (Bytes × Bytes) :=
  [(".html", "text/html"), (".css", "text/css"), (".avi", "video/x-msvideo"), (".bmp", "image/bmp"),
    (".c", "text/plain"), (".doc", "application/msword"), (".gif", "image/gif"),
    (".gz", "application/x-gzip"), (".htm", "text/html"), (".ico", "image/x-icon"),
    (".jpg", "image/jpeg"), (".png", "image/png"), (".txt", "text/plain"), (".mp3", "audio/mp3"),
    ("default", "text/html")].map fun e => (bytesOf e.1.toList, bytesOf e.2.toList)

def getMime (suffix : Bytes) : Bytes :=
  match mime.lookup suffix with
  | none => (mime.lookup (bytesOf "default".toList)).getD []
  | some value => value

end Mimetype

/-- The name of the file for a path that has gone through c_str. -/
def filepathOf (path : Bytes) : Bytes :=
  let filepath := bytesOf "./www".toList ++ path
  if filepath = bytesOf "./www/".toList then filepath ++ bytesOf "index.html".toList else filepath

/-- rfind of a character that is there. -/
def rfind (s : Bytes) (c : UInt8) : Nat := s.length - 1 - s.reverse.idxOf c

/-- `filepath.substr(dot_pos)`, where dot_pos is an int. -/
def suffixOf (filepath : Bytes) : Except StaticStop Bytes :=
  let pos := ofInt (toInt (rfind filepath 46))
  if filepath.length < pos then .error .outOfRange else .ok (filepath.drop pos)

/-- The response with a file in it. -/
def filePage (filepath context : Bytes) (resp : HttpResponse) : Except StaticStop HttpResponse := do
  let resp := (resp.setStatusCode .k200Ok).setStatusMessage (bytesOf "OK".toList)
  let suffix ← suffixOf filepath
  let resp := resp.setContentType (Mimetype.getMime suffix)
  let resp := resp.addHeader (bytesOf "Server".toList) (bytesOf "Muduo".toList)
  return resp.setBody context

def staticRequest (files : Bytes → FileAt) (cache : LFUCache) (req : HttpRequest)
    (resp : HttpResponse) : Except StaticStop (HttpResponse × LFUCache) := do
  let path := req.path.takeWhile (· ≠ 0)
  let filepath := filepathOf path
  let (found, context, cache) ← stopWith (cache.get path [])
  if found then do
    let resp ← filePage filepath context resp
    return (resp, cache)
  else
    match (files filepath).size with
    | none => .ok (resp, cache)
    | some st_size => do
        let context ← (files filepath).read (toInt st_size)
        let cache ← stopWith (cache.set path context)
        let resp ← filePage filepath context resp
        return (resp, cache)

/-- What a request is to be answered: the file as it lies on the disk. -/
def filePageFor (files : Bytes → FileAt) (req : HttpRequest) (resp : HttpResponse) :
    Except StaticStop HttpResponse :=
  let filepath := filepathOf (req.path.takeWhile (· ≠ 0))
  match (files filepath).size with
  | none => .ok resp
  | some st_size => do
      let context ← (files filepath).read (toInt st_size)
      filePage filepath context resp

section Memo

/-- The bytes of a file that can be read. -/
def contentOf (files : Bytes → FileAt) (path : Bytes) : Option Bytes :=
  (files (filepathOf path)).size.bind fun st_size =>
    ((files (filepathOf path)).read (toInt st_size)).toOption

/-- Everything that the cache holds is a value of this function. -/
def LFUCache.Remembers (c : LFUCache) (value : Bytes → Option Bytes) : Prop :=
  ∃ bs, Sound c bs ∧ Fresh c.kmap bs value

variable {c c' : LFUCache} {value : Bytes → Option Bytes} {k v out : Bytes} {found : Bool}

theorem LFUCache.Remembers.get_ok (hc : c.Remembers value) (h : c.get k v = .ok (found, out, c')) :
    c'.Remembers value ∧ (found = true → ∃ x, value k = some x ∧ out = v ++ x) := by
  obtain ⟨bs, hsound, hfresh⟩ := hc
  refine ⟨?_, fun htrue => ?_⟩
  · by_cases hk : k ∈ c.kmap
    · obtain ⟨f, x, -, -, -, -, hfits, hover⟩ := hsound.get_cached hk v
      by_cases hf : f < intMax
      · obtain ⟨c'', nb, bs', hget, hp, hsound', hkmap⟩ := hfits hf
        cases hget.symm.trans h
        exact ⟨bs', hsound', hkmap ▸ hfresh.promoted hp⟩
      · cases (hover hf).symm.trans h
    · cases (hsound.get_missing hk v).symm.trans h
      exact ⟨bs, hsound, hfresh⟩
  · subst htrue
    exact hsound.get_fresh hfresh h

theorem LFUCache.Remembers.set_ok (hc : c.Remembers value) (hv : value k = some v)
    (h : c.set k v = .ok c') : c'.Remembers value := by
  obtain ⟨bs, hsound, hfresh⟩ := hc
  obtain ⟨kmap₁, bs₁, c'', nb, bs', x, hset, hroom, rfl, rfl, hentered, hsound', hkmap⟩ :=
    hsound.set_ok k v
  cases hset.symm.trans h
  exact ⟨bs', hsound', hkmap ▸ (hfresh.made_room hroom).entered hentered hv fun _ _ => rfl⟩

theorem LFUCache.Remembers.init_ok (h : LFUCache.init = .ok c) : c.Remembers value := by
  obtain ⟨c₀, hinit, hsound, hkmap⟩ := Sound.init_ok
  cases hinit.symm.trans h
  refine ⟨[], hsound, fun k p hk => ?_⟩
  rw [hkmap, Finmap.lookup_empty] at hk
  cases hk

end Memo

section Request

variable {files : Bytes → FileAt} {c c' : LFUCache} {req : HttpRequest} {resp r : HttpResponse}

theorem contentOf_eq_some {path content : Bytes} : contentOf files path = some content ↔
    ∃ n, (files (filepathOf path)).size = some n ∧
      (files (filepathOf path)).read (toInt n) = .ok content := by
  rw [contentOf, Option.bind_eq_some_iff]
  constructor
  · intro h
    obtain ⟨n, hn, hread⟩ := h
    cases hc : (files (filepathOf path)).read (toInt n) with
    | error e =>
        rw [hc] at hread
        cases hread
    | ok x =>
        rw [hc] at hread
        cases hread
        exact ⟨n, hn, hc⟩
  · intro h
    obtain ⟨n, hn, hread⟩ := h
    exact ⟨n, hn, by rw [hread]; rfl⟩

/-- With a cache that remembers the files, staticRequest answers what the disk
would, and the cache goes on remembering them. -/
theorem staticRequest_ok (hc : c.Remembers (contentOf files))
    (h : staticRequest files c req resp = .ok (r, c')) :
    filePageFor files req resp = .ok r ∧ c'.Remembers (contentOf files) := by
  simp only [staticRequest, bind_eq_ok, stopWith_ok] at h
  obtain ⟨⟨found, context, c₁⟩, hget, h⟩ := h
  obtain ⟨hc₁, hfound⟩ := hc.get_ok hget
  cases found with
  | true =>
      obtain ⟨content, hcontent, hcontext⟩ := hfound rfl
      obtain ⟨n, hsize, hread⟩ := contentOf_eq_some.mp hcontent
      rw [List.nil_append] at hcontext
      subst hcontext
      simp only [↓reduceIte, bind_eq_ok] at h
      obtain ⟨r', hpage, h⟩ := h
      cases h
      refine ⟨?_, hc₁⟩
      simp only [filePageFor, hsize, hread, ok_bind, hpage]
  | false =>
      simp only [Bool.false_eq_true, ↓reduceIte] at h
      cases hsize : (files (filepathOf (req.path.takeWhile (· ≠ 0)))).size with
      | none =>
          rw [hsize] at h
          cases h
          refine ⟨?_, hc₁⟩
          simp only [filePageFor, hsize]
      | some n =>
          simp only [hsize, bind_eq_ok, stopWith_ok] at h
          obtain ⟨content, hread, c₂, hset, r', hpage, h⟩ := h
          cases h
          refine ⟨?_, hc₁.set_ok (contentOf_eq_some.mpr ⟨n, hsize, hread⟩) hset⟩
          simp only [filePageFor, hsize, hread, ok_bind, hpage]

/-- What readers of the responses rely on. -/
theorem getMime_oneLine (suffix : Bytes) : HttpResponse.OneLine (Mimetype.getMime suffix) := by
  have hall : ∀ e ∈ Mimetype.mime, HttpResponse.OneLine e.2 := by decide
  rw [Mimetype.getMime]
  split
  · decide
  · rename_i value hlookup
    obtain ⟨before, after, hmime, -⟩ := List.lookup_eq_some_iff.mp hlookup
    exact hall (suffix, value) (by rw [hmime]; exact List.mem_append_right _ List.mem_cons_self)

theorem read_length {f : FileAt} {n : Nat} {content : Bytes} (h : f.read (toInt n) = .ok content) :
    content.length ≤ intMax := by
  have hsize : (toInt n).toNat ≤ intMax := by
    unfold toInt intMax
    split <;> omega
  simp only [FileAt.read] at h
  split at h
  · cases h
  · split at h
    · cases h
      exact Nat.zero_le _
    · cases f with
      | mapped whole =>
          cases h
          exact (List.length_take_le _ _).trans hsize
      | absent => cases h
      | unmapped _ => cases h

theorem filePage_ok {filepath context : Bytes} (h : filePage filepath context resp = .ok r) :
    ∃ suffix, suffixOf filepath = .ok suffix ∧ r = { resp with
      statusCode := .k200Ok
      statusMessage := bytesOf "OK".toList
      headers := (resp.headers.insert (bytesOf "Content-Type".toList)
        (Mimetype.getMime suffix)).insert
        (bytesOf "Server".toList) (bytesOf "Muduo".toList)
      body := context } := by
  obtain ⟨suffix, hsuffix, h⟩ := bind_eq_ok.mp h
  cases h
  exact ⟨suffix, hsuffix, rfl⟩

/-- A page can be taken apart again. -/
theorem filePageFor_plain {close : Bool}
    (h : filePageFor files req (HttpResponse.new close) = .ok r) :
    r.Plain ∧ r.NamesEnd := by
  have hok : HttpResponse.OneLine (bytesOf "OK".toList) := by decide
  rw [filePageFor] at h
  split at h
  · cases h
    exact ⟨⟨⟨List.not_mem_nil, List.not_mem_nil⟩, fun _ hmem => absurd hmem List.not_mem_nil,
      fun _ hmem => absurd hmem List.not_mem_nil, Nat.pos_of_ne_zero (by decide)⟩,
      fun _ hmem => absurd hmem List.not_mem_nil⟩
  · obtain ⟨content, hread, h⟩ := bind_eq_ok.mp h
    obtain ⟨suffix, -, rfl⟩ := filePage_ok h
    have hentries {e : Bytes × Bytes}
        (he : e ∈ ((OrderedMap.empty.insert (bytesOf "Content-Type".toList)
          (Mimetype.getMime suffix)).insert (bytesOf "Server".toList)
            (bytesOf "Muduo".toList)).entries) :
        (e.1 = bytesOf "Server".toList ∨ e.1 = bytesOf "Content-Type".toList) ∧
          HttpResponse.OneLine e.2 := by
      cases OrderedMap.mem_insertEntry he with
      | inl heq =>
          rw [heq]
          exact ⟨.inl rfl, by decide⟩
      | inr hmem =>
          rw [List.mem_singleton.mp hmem]
          exact ⟨.inr rfl, getMime_oneLine suffix⟩
    have hnames {name : Bytes}
        (hname : name = bytesOf "Server".toList ∨ name = bytesOf "Content-Type".toList) :
        HttpResponse.OneLine name ∧ ¬ bytesOf [':', ' '] <:+: name := by
      cases hname with
      | inl heq =>
          rw [heq]
          decide
      | inr heq =>
          rw [heq]
          decide
    have hlength := read_length hread
    refine ⟨⟨hok, fun e he => (hnames (hentries he).1).1, fun e he => (hentries he).2, ?_⟩,
      fun e he => (hnames (hentries he).1).2⟩
    unfold intMax at hlength
    dsimp only
    omega

end Request

/-- The cache and the connections. -/
structure StaticServer where
  cache : LFUCache
  conns : Nat → HttpConnection

/-- What a loop meets on a connection. -/
inductive StaticEvent where
  | handleRead (result : ReadResult) (receiveTime : TimeStamp) (writes : Nat → WriteResult)
  | handleWrite (result : WriteResult)
  | handleClose

namespace StaticServer

variable (files : Bytes → FileAt)

/-- staticRequest as the connection sees it. -/
def httpCallback (cache : LFUCache) : HttpCallback := fun req resp =>
  match staticRequest files cache req resp with
  | .error _ => resp
  | .ok (r, _) => r

def httpEvent (cache : LFUCache) : StaticEvent → HttpEvent
  | .handleRead result receiveTime writes =>
      .handleRead ⟨result, receiveTime, httpCallback files cache, writes⟩
  | .handleWrite result => .handleWrite result
  | .handleClose => .handleClose

/-- What the request that a message completes, if any, makes of the cache. -/
def cacheAfter (cache : LFUCache) : List (HttpRequest × HttpResponse) → Except StaticStop LFUCache
  | [] => .ok cache
  | (req, _) :: _ => do
      let (_, cache) ← staticRequest files cache req
        (HttpResponse.new (HttpServer.closeRequested req))
      return cache

def start (cache : LFUCache) (loops : Nat → InLoop) : StaticServer :=
  ⟨cache, fun i => HttpConnection.start (loops i)⟩

/-- Something happens on a connection. The loop calls one handler after the other,
so a request has the cache for itself. -/
def exec (s : StaticServer) (e : Nat × StaticEvent) : Except StaticStop StaticServer := do
  let old := s.conns e.1
  let conn ← stopWith (old.exec (httpEvent files s.cache e.2))
  let cache ← cacheAfter files s.cache (conn.answered.drop old.answered.length)
  return ⟨cache, fun i => if i = e.1 then conn else s.conns i⟩

/-- The peer of the connection still takes what it is sent. -/
def Unbroken (s : StaticServer) (e : Nat × StaticEvent) : Prop :=
  (s.conns e.1).Unbroken (httpEvent files s.cache e.2)

end StaticServer

namespace HttpConnection

/-- A step answers at most one request. -/
theorem exec_answered_one {s t : HttpConnection} {e : HttpEvent} (h : s.exec e = .ok t) :
    t.answered = s.answered ∨ ∃ r req, e = .handleRead r ∧
      t.answered = s.answered ++ [(req, HttpServer.respond r.httpCallback req)] := by
  cases e with
  | handleRead r =>
      simp only [exec, handleRead] at h
      split at h
      · cases h
        exact .inl rfl
      · simp only [bind_eq_ok] at h
        obtain ⟨b, -, h⟩ := h
        split at h
        · simp only [onMessage, bind_eq_ok] at h
          obtain ⟨m, -, loop, -, h⟩ := h
          cases h
          dsimp only
          cases m.dispatched with
          | none => exact .inl (List.append_nil _)
          | some req => exact .inr ⟨r, req, rfl, rfl⟩
        · obtain ⟨loop, -, h⟩ := bind_eq_ok.mp h
          cases h
          exact .inl rfl
  | handleWrite result =>
      obtain ⟨loop, -, h⟩ := bind_eq_ok.mp h
      cases h
      exact .inl rfl
  | handleClose =>
      obtain ⟨loop, -, h⟩ := bind_eq_ok.mp h
      cases h
      exact .inl rfl

end HttpConnection

namespace StaticServer

variable {files : Bytes → FileAt}

/-- Every answer that was given is the one the disk makes. -/
structure Truthful (files : Bytes → FileAt) (s : StaticServer) : Prop where
  remembers : s.cache.Remembers (contentOf files)
  answers : ∀ i, ∀ p ∈ (s.conns i).answered,
    filePageFor files p.1 (HttpResponse.new (HttpServer.closeRequested p.1)) = .ok p.2

theorem start_truthful {cache : LFUCache} (h : LFUCache.init = .ok cache) (loops : Nat → InLoop) :
    Truthful files (start cache loops) :=
  ⟨.init_ok h, fun _ _ hp => absurd hp List.not_mem_nil⟩

/-- A step of the server is one of the connection and leaves the others alone. -/
theorem exec_conn {s t : StaticServer} {e : Nat × StaticEvent} (h : exec files s e = .ok t) :
    (s.conns e.1).exec (httpEvent files s.cache e.2) = .ok (t.conns e.1) ∧
      (∀ i, i ≠ e.1 → t.conns i = s.conns i) ∧
      cacheAfter files s.cache ((t.conns e.1).answered.drop (s.conns e.1).answered.length) =
        .ok t.cache := by
  simp only [exec, bind_eq_ok, stopWith_ok] at h
  obtain ⟨conn, hconn, cache, hcache, h⟩ := h
  cases h
  simp only [↓reduceIte]
  exact ⟨hconn, fun i hi => if_neg hi, hcache⟩

theorem exec_truthful {s t : StaticServer} {e : Nat × StaticEvent} (hs : Truthful files s)
    (h : exec files s e = .ok t) : Truthful files t := by
  obtain ⟨hconn, hothers, hcache⟩ := exec_conn h
  have hanswers (hthis : ∀ p ∈ (t.conns e.1).answered,
      filePageFor files p.1 (HttpResponse.new (HttpServer.closeRequested p.1)) = .ok p.2) :
      ∀ i, ∀ p ∈ (t.conns i).answered,
        filePageFor files p.1 (HttpResponse.new (HttpServer.closeRequested p.1)) = .ok p.2 := by
    intro i
    by_cases hi : i = e.1
    · exact hi ▸ hthis
    · rw [hothers i hi]
      exact hs.answers i
  cases HttpConnection.exec_answered_one hconn with
  | inl hsame =>
      rw [hsame, List.drop_length] at hcache
      have hkept : s.cache = t.cache := Except.ok.inj hcache
      refine ⟨hkept ▸ hs.remembers, hanswers ?_⟩
      rw [hsame]
      exact hs.answers e.1
  | inr hone =>
      obtain ⟨r, req, hread, hone⟩ := hone
      rw [hone, List.drop_left, cacheAfter] at hcache
      obtain ⟨⟨resp, cache⟩, hrequest, h⟩ := bind_eq_ok.mp hcache
      cases h
      obtain ⟨hpage, hremembers⟩ := staticRequest_ok hs.remembers hrequest
      -- the callback that the connection ran is the request just made
      have hcallback : HttpServer.respond r.httpCallback req = resp := by
        cases hevent : e.2 with
        | handleRead result receiveTime writes =>
            rw [hevent] at hread
            cases hread
            simp only [HttpServer.respond, httpCallback, hrequest]
        | handleWrite result =>
            rw [hevent] at hread
            cases hread
        | handleClose =>
            rw [hevent] at hread
            cases hread
      refine ⟨hremembers, hanswers fun p hp => ?_⟩
      rw [hone, hcallback] at hp
      cases List.mem_append.mp hp with
      | inl hp => exact hs.answers e.1 p hp
      | inr hp =>
          cases List.mem_singleton.mp hp
          exact hpage

/-- What a run of the server does on one connection is a run of that connection. -/
theorem run_conn {s t : StaticServer} {events : List (Nat × StaticEvent)}
    (h : run (exec files) s events = .ok t) (i : Nat) :
    ∃ own, run HttpConnection.exec (s.conns i) own = .ok (t.conns i) ∧
      (Respects (exec files) (Unbroken files) s events →
        Respects HttpConnection.exec HttpConnection.Unbroken (s.conns i) own) := by
  induction events generalizing s with
  | nil =>
      cases h
      exact ⟨[], rfl, fun _ => trivial⟩
  | cons e events ih =>
      obtain ⟨m, hm, h⟩ := run_cons_ok.mp h
      obtain ⟨own, hown, hunbroken⟩ := ih h
      obtain ⟨hconn, hothers, -⟩ := exec_conn hm
      by_cases hi : i = e.1
      · subst hi
        refine ⟨httpEvent files s.cache e.2 :: own, run_cons_ok.mpr ⟨_, hconn, hown⟩,
          fun hpre => ?_⟩
        refine ⟨hpre.1, fun c hc => ?_⟩
        cases hconn.symm.trans hc
        exact hunbroken (hpre.2 m hm)
      · rw [hothers i hi] at hown hunbroken
        exact ⟨own, hown, fun hpre => hunbroken (hpre.2 m hm)⟩

/-- Whatever the connections ask for and in whichever order their requests come, with
a cache that every one of them fills and empties for the others: each request that was
answered, on any connection and behind whatever bytes, has got the page that the files on
the disk make. A client that sends well-formed requests reads these pages in the order of
its requests, and all of them if it takes what it is sent. -/
theorem pages_served {cache : LFUCache} (hcache : LFUCache.init = .ok cache) {loops : Nat → InLoop}
    (hloops : ∀ i, (loops i).Established) {events : List (Nat × StaticEvent)} {t : StaticServer}
    (h : run (exec files) (start cache loops) events = .ok t) :
    (∀ i, ∀ p ∈ (t.conns i).answered,
      filePageFor files p.1 (HttpResponse.new (HttpServer.closeRequested p.1)) = .ok p.2) ∧
    ∀ i requests rest, (t.conns i).received ++ rest = textOf requests →
      ∃ done left kept, requests = done ++ left ∧
        List.Forall₂ SameRequest ((t.conns i).answered.map Prod.fst) done ∧
        kept.Sublist (HttpResponse.untilClose ((t.conns i).answered.map Prod.snd)) ∧
        Reader.responses (t.conns i).output.length (t.conns i).output =
          some (kept.map HttpResponse.message) ∧
        (Respects (exec files) (Unbroken files) (start cache loops) events →
          kept = HttpResponse.untilClose ((t.conns i).answered.map Prod.snd)) := by
  have htruthful : Truthful files t :=
    run_invariant_of_step (fun _ _ _ hs => exec_truthful hs) (start_truthful hcache loops) h
  refine ⟨htruthful.answers, fun i requests rest hbytes => ?_⟩
  obtain ⟨own, hown, hunbroken⟩ := run_conn h i
  have hstart := HttpConnection.start_serves (hloops i)
  have hfirst : (t.conns i).received ++ rest = textOf ([] ++ requests) := hbytes
  obtain ⟨done, left, u, hsplit, hanswers⟩ := HttpConnection.run_answers
    (HttpConnection.start_answers (hloops i)) hstart hown hfirst
  obtain ⟨hserves, -⟩ := HttpConnection.run_serves hstart hown
  obtain ⟨kept, hkept, hread, hreadAll⟩ := hanswers.reads hserves fun p hp =>
    filePageFor_plain (htruthful.answers i p hp)
  refine ⟨done, left, kept, hsplit.symm, hanswers.same, hkept, hread, fun hpre => ?_⟩
  exact hreadAll (HttpConnection.run_unbroken (hloops i) hown (hunbroken hpre))

/-- A disk with one file on it. -/
def indexOnly (name : Bytes) : FileAt :=
  if name = bytesOf "./www/index.html".toList then .mapped (bytesOf "hello".toList) else .absent

/-- Two connections ask for the file; the second one is answered from the cache. -/
def twoVisits : List (Nat × StaticEvent) :=
  [(0, .handleRead (.data (textOf [Session.plainGet])) 0 fun _ => .wrote 1000),
    (1, .handleRead (.data (textOf [Session.plainGet])) 1 fun _ => .wrote 50)]

/-- The server with established connections, put through these events. -/
def served (files : Bytes → FileAt) (events : List (Nat × StaticEvent)) :
    Except StaticStop StaticServer := do
  let cache ← stopWith LFUCache.init
  let loop ← stopWith InLoop.establish
  run (exec files) (start cache fun _ => loop) events

theorem pages_served_twice :
    ∃ cache loop t, LFUCache.init = .ok cache ∧ loop.Established ∧
      run (exec indexOnly) (start cache fun _ => loop) twoVisits = .ok t ∧
      t.cache.useCount (bytesOf ['/']) = .ok 2 ∧
      (t.conns 1).answered.map (fun p => p.2.body) = [bytesOf "hello".toList] ∧
      (∀ i, ∀ p ∈ (t.conns i).answered, filePageFor indexOnly p.1
        (HttpResponse.new (HttpServer.closeRequested p.1)) = .ok p.2) ∧
      ∃ kept : List HttpResponse,
        kept.Sublist (HttpResponse.untilClose ((t.conns 1).answered.map Prod.snd)) ∧
        Reader.responses (t.conns 1).output.length (t.conns 1).output =
          some (kept.map HttpResponse.message) := by
  obtain ⟨t, ht, hcount, hbody, hreceived⟩ := resultHolds_iff.mp
    (show resultHolds (fun t : StaticServer =>
        resultHolds (· = 2) (t.cache.useCount (bytesOf ['/'])) = true ∧
        (t.conns 1).answered.map (fun p => p.2.body) = [bytesOf "hello".toList] ∧
        (t.conns 1).received ++ [] = textOf [Session.plainGet])
      (served indexOnly twoVisits) = true by decide +kernel)
  obtain ⟨n, hn, rfl⟩ := resultHolds_iff.mp hcount
  simp only [served, bind_eq_ok, stopWith_ok] at ht
  obtain ⟨cache, hcache, loop, hloop, hrun⟩ := ht
  obtain ⟨hpages, hclients⟩ := pages_served hcache (fun _ => InLoop.establish_ok hloop) hrun
  obtain ⟨-, -, kept, -, -, hkept, hread, -⟩ := hclients 1 _ _ hreceived
  exact ⟨cache, loop, t, hcache, InLoop.establish_ok hloop, hrun, hn, hbody, hpages, kept, hkept,
    hread⟩

end StaticServer

end TAlib
