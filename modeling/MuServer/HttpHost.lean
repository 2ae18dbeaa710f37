import MuServer.CachedFiles
import MuServer.HttpConversation

/-!
# One server, many clients

The connections of a server share its cache of files. The thread of a connection
looks a file up while it answers, and brings a copy into the cache later, while other
threads do the same. What a client gets is still what the routes and the disk alone
would give it.
-/

set_option autoImplicit false

namespace MuServer
open Lib.Machine Lib.Fallible

namespace HttpServer

variable (Hash : Bytes → ℕ)

/-- What `onRequest` does to the cache up to its `sendFile`, with the copy that it
brings into the cache behind it. -/
def lookUp (s : HttpServer) (w : Surroundings) (request : HttpRequest) :
    Except Fault (HttpServer × Option (Bytes × Bytes)) :=
  match (s.answer request).file_ with
  | none => .ok (s, none)
  | some sf =>
    if sf.getFileSize ≤ MAX_CHACHE_FILE_SIZE then do
      let (content, cache) ← s.fileCache_.get Hash sf.path w.onGet
      .ok ({ s with fileCache_ := cache }, if content.isSome then none
        else (w.disk sf.path).map (fun file => (sf.path, loaded file sf.getFileSize)))
    else .ok (s, none)

def bringIn (s : HttpServer) (copy : Bytes × Bytes) (it : Iteration Bytes) :
    Except Fault HttpServer := do
  let cache ← s.fileCache_.put Hash copy.1 (some copy.2) it
  .ok { s with fileCache_ := cache }

/-- The two parts one behind the other are what `onRequest` does to the server. -/
theorem onRequest_parts (s s' : HttpServer) (w : Surroundings) (request : HttpRequest)
    (calls : List Request) (h : s.onRequest Hash w request = .ok (calls, s')) :
    ∃ t copy, s.lookUp Hash w request = .ok (t, copy) ∧
      (match copy with
        | none => s' = t
        | some copy => t.bringIn Hash copy w.onPut = .ok s') := by
  obtain ⟨sent, hd, rfl⟩ := (onRequest_ok_iff Hash s s' w request calls).mp h
  unfold deliver HttpResponse.isStaticFile at hd
  rw [HttpResponse.isStaticFile_eq] at hd
  unfold lookUp
  cases hf : (s.answer request).file_ with
  | none =>
    rw [hf, if_neg (by simp)] at hd
    obtain ⟨calls, -, hd⟩ := bind_eq_ok hd
    obtain ⟨rfl, rfl⟩ := Prod.mk.inj (Except.ok.inj hd)
    exact ⟨_, _, rfl, rfl⟩
  | some sf =>
    rw [hf, if_pos (by simp)] at hd
    have hstatic : s.sendStaticFile Hash w (s.answer request) sf = .ok (sent, s') := hd
    unfold sendStaticFile at hstatic
    by_cases hsmall : sf.getFileSize ≤ MAX_CHACHE_FILE_SIZE
    · rw [if_pos hsmall] at hstatic
      obtain ⟨⟨content, cache⟩, hget, hstatic⟩ := bind_eq_ok hstatic
      simp only [if_pos hsmall, hget, bind, Except.bind]
      refine ⟨_, _, rfl, ?_⟩
      cases content with
      | some data =>
        obtain ⟨calls, -, hstatic⟩ := bind_eq_ok hstatic
        obtain ⟨rfl, rfl⟩ := Prod.mk.inj (Except.ok.inj hstatic)
        rfl
      | none =>
        obtain ⟨calls, -, hstatic⟩ := bind_eq_ok hstatic
        obtain ⟨cache', hreload, hstatic⟩ := bind_eq_ok hstatic
        obtain ⟨rfl, rfl⟩ := Prod.mk.inj (Except.ok.inj hstatic)
        unfold reloadCache at hreload
        cases hfile : w.disk sf.path with
        | none =>
          rw [hfile] at hreload
          obtain rfl := Except.ok.inj hreload
          rfl
        | some file =>
          rw [hfile] at hreload
          simp only [bringIn, Option.map_some, Option.isSome_none, Bool.false_eq_true, if_false,
            hreload, bind, Except.bind]
    · rw [if_neg hsmall] at hstatic
      obtain ⟨calls, -, hstatic⟩ := bind_eq_ok hstatic
      obtain ⟨rfl, rfl⟩ := Prod.mk.inj (Except.ok.inj hstatic)
      simp only [if_neg hsmall]
      exact ⟨_, _, rfl, rfl⟩

/-- What the answers to one message do to the cache; a message brings at most one
request (`onMessage_answers`). -/
def lookUps (s : HttpServer) (w : Surroundings) :
    List Answer → Except Fault (HttpServer × List (Bytes × Bytes))
  | [] => .ok (s, [])
  | .send _::answers => s.lookUps w answers
  | .onRequest request::answers => do
    let (s, copy) ← s.lookUp Hash w request
    let (s, copies) ← s.lookUps w answers
    .ok (s, copy.toList ++ copies)

def plainText (regs : List Registration) (disk : Bytes → Option Bytes) (order : HeaderOrder)
    (request : HttpRequest) : Bytes :=
  let resp := (Router.build regs).handleRequest request (newResponse request)
  match resp.file_ with
  | none => resp.headText resp.body_.length order ++ resp.body_
  | some sf => resp.headText sf.getFileSize order ++ StaticFile.payload {
      content := (disk sf.path).getD []
      offset_ := sf.offset_
      fileSize_ := sf.getFileSize }

def plainAnswer (regs : List Registration) (disk : Bytes → Option Bytes) (order : HeaderOrder) :
    Answer → Bytes
  | .send text => text
  | .onRequest request => plainText regs disk order request

def heard (c : HttpConnection) :
    List (TimeStamp × Bytes) → Except Fault (List Answer × HttpConnection)
  | [] => .ok ([], c)
  | (receivedTime, data)::reads => do
    let buffer ← c.inputBuffer_.readFd data
    let (answers, c) ← onMessage { c with inputBuffer_ := buffer } receivedTime
    let (later, c) ← heard c reads
    .ok (answers ++ later, c)

def Whole (regs : List Registration) (disk : Bytes → Option Bytes) : Prop :=
  ∀ sf, Offers (Router.build regs) sf → sf.getFileSize ≤ MAX_CHACHE_FILE_SIZE →
    sf.offset_ = 0 ∧ ∀ file, disk sf.path = some file → file.length = sf.getFileSize

def OnDisk (disk : Bytes → Option Bytes) (path data : Bytes) : Prop := disk path = some data

structure Met (regs : List Registration) (disk : Bytes → Option Bytes) (v : Visit) : Prop where
  router : v.server.router_ = Router.build regs
  holds : v.server.Holds Hash (OnDisk disk)
  disk : v.surroundings.disk = disk

variable (regs : List Registration) (disk : Bytes → Option Bytes) (hwhole : Whole regs disk)

include hwhole

theorem whole_payload (sf : NamedFile) (hf : Offers (Router.build regs) sf)
    (hsmall : sf.getFileSize ≤ MAX_CHACHE_FILE_SIZE) (file : Bytes)
    (hfile : disk sf.path = some file) :
    file.length = sf.getFileSize ∧ StaticFile.payload {
      content := file
      offset_ := sf.offset_
      fileSize_ := sf.getFileSize } = file ∧ loaded file sf.getFileSize = file := by
  obtain ⟨hoffset, hlength⟩ := hwhole sf hf hsmall
  have hsize := hlength file hfile
  refine ⟨hsize, ?_, ?_⟩
  · rw [StaticFile.payload]
    simp only [hoffset, List.drop_zero, ← hsize, List.take_length]
  · rw [loaded, ← hsize, List.take_length, Nat.sub_self, List.replicate_zero, List.append_nil]

theorem exchanged_plain (e : Exchange) (hv : Met Hash regs disk e.visit) (he : Exchanged Hash e) :
    e.text = plainAnswer regs disk e.visit.surroundings.order e.answer := by
  cases he with
  | refusal visit => exact List.append_nil _
  | request v request calls s h =>
    have hresp : v.server.answer request =
        (Router.build regs).handleRequest request (newResponse request) := by
      rw [answer, hv.router]
    have hloads : v.server.Loads (OnDisk disk) v.surroundings request := by
      intro sf content hf hsmall hd
      rw [hresp] at hf
      rw [hv.disk] at hd
      show disk sf.path = _
      rw [(whole_payload regs disk hwhole sf ⟨request, hf⟩ hsmall content hd).2.2, hd]
    obtain ⟨-, -, sent, hsent, rfl⟩ := onRequest_spec Hash v.server s _ hv.holds v.surroundings
      request hloads calls h
    rw [request_text, plainAnswer, plainText]
    rw [hresp] at hsent
    cases hsent with
    | body hf =>
      simp only [hf]
      simp [handedOver, Request.payload?]
    | copy sf data hf hsmall hc =>
      have hdata : disk sf.path = some data :=
        cached_holds Hash v.server _ hv.holds sf.path data hc
      obtain ⟨hlength, hpayload, -⟩ := whole_payload regs disk hwhole sf ⟨request, hf⟩ hsmall data hdata
      simp only [hf, hdata, Option.getD_some]
      rw [hpayload, ← hlength]
      simp [handedOver, Request.payload?]
    | file sf content hf hd hmiss =>
      rw [hv.disk] at hd
      simp only [hf, hd, Option.getD_some]
      simp [handedOver, Request.payload?]

omit hwhole in
/-- The answers to the reads, with the exchanges that the callback keeps of them. -/
theorem replies_heard (ms : List (Incoming Visit)) (service service' : HttpService)
    (b b' : Buffer) (calls : List Request)
    (h : Served.replies (messageCallback Hash) service b ms = .ok (calls, service', b')) :
    ∃ more, service'.answered = service.answered ++ more ∧
      heard { context := service.context, inputBuffer_ := b }
          (ms.map (fun m => (m.receiveTime, m.data))) =
        .ok (more.map Exchange.answer, { context := service'.context, inputBuffer_ := b' }) := by
  induction ms generalizing service b calls with
  | nil =>
    obtain ⟨rfl, hrest⟩ := Prod.mk.inj (Except.ok.inj h)
    obtain ⟨rfl, rfl⟩ := Prod.mk.inj hrest
    exact ⟨[], (List.append_nil _).symm, rfl⟩
  | cons m ms ih =>
    obtain ⟨b1, hread, h⟩ := bind_eq_ok h
    obtain ⟨⟨first, service1, b2⟩, hfirst, h⟩ := bind_eq_ok h
    obtain ⟨⟨later, service2, b3⟩, hlater, h⟩ := bind_eq_ok h
    obtain ⟨-, hends⟩ := Prod.mk.inj (Except.ok.inj h)
    obtain ⟨rfl, rfl⟩ := Prod.mk.inj hends
    obtain ⟨answers, now, hm, hnow, -, hmap, -⟩ := messageCallback_ok Hash _ _ _ _ _ _ _ hfirst
    obtain ⟨more, hmore, hheard⟩ := ih service1 b2 later hlater
    refine ⟨now ++ more, by rw [hmore, hnow, List.append_assoc], ?_⟩
    rw [List.map_cons, heard]
    simp only [hread, bind, Except.bind, hm, hheard, List.map_append, hmap]

variable {T : Type} [DecidableEq T]

/-- A client that only ever meets the routes, the disk and copies of it gets what the
routes and the disk alone would give it. -/
theorem met_wire (fd owner : ℕ) (ok : Served T Visit HttpService → ServeAct T Visit → Prop)
    (hok : ∀ s m, ok s (.message m) → Met Hash regs disk m.surroundings)
    (s : Served T Visit HttpService)
    (h : Reach (Served.step (messageCallback Hash)) ok (Served.start fd owner {}) s)
    (herr : s.conn.hardErrors = 0) :
    ∃ answers c orders, heard {} (s.incoming.map (fun m => (m.receiveTime, m.data))) =
        .ok (answers, c) ∧ orders.length = answers.length ∧
      s.conn.wire <+: (List.zipWith (plainAnswer regs disk) orders answers).flatten ∧
      (s.conn.state_ = .kConnected → s.conn.control = .frames → s.conn.contextQueue_ = [] →
        s.calls = [] →
        s.conn.wire = (List.zipWith (plainAnswer regs disk) orders answers).flatten) := by
  have hreplied := Served.reach_replied (messageCallback Hash) fd owner {} _ s h
  obtain ⟨more, hmore, hcalls, hall⟩ := replies_answered Hash _ _ _ _ _ _ hreplied
  obtain ⟨more', hmore', hheard⟩ := replies_heard Hash _ _ _ _ _ _ hreplied
  obtain rfl : more = more' := List.append_cancel_left (hmore.symm.trans hmore')
  have hmet := Served.reach_incoming (messageCallback Hash) fd owner {} _
    (fun m => Met Hash regs disk m.surroundings) hok s h
  have htexts : more.map Exchange.text = List.zipWith (plainAnswer regs disk)
      (more.map (fun e => e.visit.surroundings.order)) (more.map Exchange.answer) := by
    rw [List.zipWith_map, List.zipWith_self]
    refine List.map_congr_left (fun e he => ?_)
    obtain ⟨⟨m, hm, hv⟩, hex⟩ := hall e he
    exact exchanged_plain Hash regs disk hwhole e (hv ▸ (hmet m hm).2) hex
  rw [List.nil_append] at hmore
  have hwire := reach_wire_texts Hash fd owner _ s h (by rw [hcalls, hmore]) herr
  rw [hmore, htexts] at hwire
  exact ⟨_, _, _, hheard, by simp, hwire.1, hwire.2⟩

end HttpServer

structure HttpHost (T : Type) where
  server : HttpServer
  nextConnId_ : ℕ := 1
  clients : ℕ → Option (Served T Visit HttpService) := fun _ => none
  /-- the copies that the thread of a client has still to bring into the cache -/
  copies : ℕ → List (Bytes × Bytes) := fun _ => []

inductive HostAct (T : Type) where
  | newConnection (fd : ℕ)
  /-- a step of a connection that is no message -/
  | own (i : ℕ) (a : ServeAct T Visit)
  | message (i : ℕ) (w : Surroundings) (receivedTime : TimeStamp) (data : Bytes)
  | bringIn (i : ℕ) (it : Iteration Bytes)

def ServeAct.reads {T W : Type} : ServeAct T W → Bool
  | .message _ => true
  | _ => false

namespace HttpHost

open HttpServer

variable {T : Type}

def setClient (host : HttpHost T) (i : ℕ) (s : Served T Visit HttpService) : HttpHost T :=
  { host with clients := Function.update host.clients i (some s) }

def news (s s' : Served T Visit HttpService) : List Answer :=
  (s'.service.answered.drop s.service.answered.length).map Exchange.answer

variable [DecidableEq T] (Hash : Bytes → ℕ)

def step (host : HttpHost T) : HostAct T → Option (HttpHost T)
  | .newConnection fd =>
    some { host.setClient host.nextConnId_ (Served.start fd host.nextConnId_ {}) with
      nextConnId_ := host.nextConnId_+1 }
  | .own i a =>
    if a.reads then none
    else (host.clients i).bind (fun s => (s.step (messageCallback Hash) a).map (host.setClient i))
  | .message i w receivedTime data =>
    if host.copies i ≠ [] then none
    else (host.clients i).bind (fun s =>
      (s.step (messageCallback Hash) (.message ⟨⟨host.server, w⟩, receivedTime, data⟩)).bind (fun s' =>
        (host.server.lookUps Hash w (news s s')).toOption.map (fun r =>
          { host.setClient i s' with
            server := r.1
            copies := Function.update host.copies i r.2 })))
  | .bringIn i it =>
    match host.copies i with
    | [] => none
    | copy::copies => (host.server.bringIn Hash copy it).toOption.map (fun server =>
        { host with
          server := server
          copies := Function.update host.copies i copies })

def Undisturbed (disk : Bytes → Option Bytes) : HostAct T → Prop
  | .message _ w _ _ => w.disk = disk
  | _ => True

def Meets (regs : List Registration) (disk : Bytes → Option Bytes)
    (_s : Served T Visit HttpService) (a : ServeAct T Visit) : Prop :=
  ∀ m, a = .message m → Met Hash regs disk m.surroundings

structure Faithful (regs : List Registration) (disk : Bytes → Option Bytes) (host : HttpHost T) :
    Prop where
  router : host.server.router_ = Router.build regs
  holds : host.server.Holds Hash (OnDisk disk)
  copies : ∀ i, ∀ copy ∈ host.copies i, OnDisk disk copy.1 copy.2
  clients : ∀ i s, host.clients i = some s → ∃ fd,
    Reach (Served.step (messageCallback Hash)) (Meets Hash regs disk) (Served.start fd i {}) s

theorem toOption_ok {α : Type} (x : Except Fault α) (a : α) (h : x.toOption = some a) :
    x = .ok a := by
  cases x with
  | error f => cases h
  | ok b => exact congrArg Except.ok (Option.some.inj h)

variable (regs : List Registration) (disk : Bytes → Option Bytes) (hwhole : Whole regs disk)

include hwhole

omit [DecidableEq T] in
theorem lookUp_faithful (s t : HttpServer) (w : Surroundings) (hw : w.disk = disk)
    (request : HttpRequest) (copy : Option (Bytes × Bytes)) (hrouter : s.router_ = Router.build regs)
    (hholds : s.Holds Hash (OnDisk disk)) (h : s.lookUp Hash w request = .ok (t, copy)) :
    t.router_ = Router.build regs ∧ t.Holds Hash (OnDisk disk) ∧
      ∀ c, copy = some c → OnDisk disk c.1 c.2 := by
  unfold lookUp at h
  split at h
  · obtain ⟨rfl, rfl⟩ := Prod.mk.inj (Except.ok.inj h)
    exact ⟨hrouter, hholds, nofun⟩
  · rename_i sf hf
    split at h
    · rename_i hsmall
      obtain ⟨⟨content, cache⟩, hget, h⟩ := bind_eq_ok h
      obtain ⟨rfl, rfl⟩ := Prod.mk.inj (Except.ok.inj h)
      have hkeeps := get_cached Hash s (OnDisk disk) hholds sf.path w.onGet
      rw [hget] at hkeeps
      refine ⟨hrouter, hkeeps.2, fun c hc => ?_⟩
      split at hc
      · cases hc
      · obtain ⟨file, hfile, rfl⟩ := Option.map_eq_some_iff.mp hc
        rw [hw] at hfile
        have hoffers : Offers (Router.build regs) sf := by
          rw [← hrouter]
          exact ⟨request, hf⟩
        show disk sf.path = _
        rw [(whole_payload regs disk hwhole sf hoffers hsmall file hfile).2.2, hfile]
    · obtain ⟨rfl, rfl⟩ := Prod.mk.inj (Except.ok.inj h)
      exact ⟨hrouter, hholds, nofun⟩

omit [DecidableEq T] in
theorem lookUps_faithful (w : Surroundings) (hw : w.disk = disk) (answers : List Answer)
    (s t : HttpServer) (copies : List (Bytes × Bytes)) (hrouter : s.router_ = Router.build regs)
    (hholds : s.Holds Hash (OnDisk disk)) (h : s.lookUps Hash w answers = .ok (t, copies)) :
    t.router_ = Router.build regs ∧ t.Holds Hash (OnDisk disk) ∧
      ∀ c ∈ copies, OnDisk disk c.1 c.2 := by
  induction answers generalizing s copies with
  | nil =>
    obtain ⟨rfl, rfl⟩ := Prod.mk.inj (Except.ok.inj h)
    exact ⟨hrouter, hholds, by simp⟩
  | cons answer answers ih =>
    cases answer with
    | send text => exact ih s copies hrouter hholds h
    | onRequest request =>
      obtain ⟨⟨u, copy⟩, hone, h⟩ := bind_eq_ok h
      obtain ⟨⟨t', later⟩, hlater, h⟩ := bind_eq_ok h
      obtain ⟨rfl, rfl⟩ := Prod.mk.inj (Except.ok.inj h)
      obtain ⟨hrouter', hholds', hcopy⟩ :=
        lookUp_faithful Hash regs disk hwhole s u w hw request copy hrouter hholds hone
      obtain ⟨hrouter'', hholds'', hcopies⟩ := ih u later hrouter' hholds' hlater
      refine ⟨hrouter'', hholds'', fun c hc => ?_⟩
      rcases List.mem_append.mp hc with hc | hc
      · exact hcopy c (Option.mem_toList.mp hc)
      · exact hcopies c hc

theorem step_faithful (host host' : HttpHost T) (a : HostAct T) (h : Faithful Hash regs disk host)
    (ha : Undisturbed disk a) (hs : host.step Hash a = some host') :
    Faithful Hash regs disk host' := by
  have hset : ∀ i s', (∃ fd, Reach (Served.step (messageCallback Hash)) (Meets Hash regs disk)
      (Served.start fd i {}) s') → ∀ j s, Function.update host.clients i (some s') j = some s →
      ∃ fd, Reach (Served.step (messageCallback Hash)) (Meets Hash regs disk)
        (Served.start fd j {}) s := by
    intro i s' hs' j s hj
    by_cases hji : j = i
    · subst hji
      rw [Function.update_self] at hj
      obtain rfl := Option.some.inj hj
      exact hs'
    · rw [Function.update_of_ne hji] at hj
      exact h.clients j s hj
  cases a with
  | newConnection fd =>
    obtain rfl := Option.some.inj hs
    exact ⟨h.router, h.holds, h.copies, hset _ _ ⟨fd, .refl⟩⟩
  | own i a =>
    obtain ⟨hreads, hs⟩ := Option.ite_none_left_eq_some.mp hs
    obtain ⟨s, hi, hs⟩ := Option.bind_eq_some_iff.mp hs
    obtain ⟨s', hs', rfl⟩ := Option.map_eq_some_iff.mp hs
    obtain ⟨fd, hreach⟩ := h.clients i s hi
    refine ⟨h.router, h.holds, h.copies, hset _ _ ⟨fd, .next s a s' hreach ?_ hs'⟩⟩
    rintro m rfl
    exact absurd rfl hreads
  | message i w receivedTime data =>
    obtain ⟨-, hs⟩ := Option.ite_none_left_eq_some.mp hs
    obtain ⟨s, hi, hs⟩ := Option.bind_eq_some_iff.mp hs
    obtain ⟨s', hs', hs⟩ := Option.bind_eq_some_iff.mp hs
    obtain ⟨⟨server, copies⟩, hlook, rfl⟩ := Option.map_eq_some_iff.mp hs
    obtain ⟨fd, hreach⟩ := h.clients i s hi
    obtain ⟨hrouter, hholds, hcopies⟩ := lookUps_faithful Hash regs disk hwhole w ha (news s s')
      host.server server copies h.router h.holds (toOption_ok _ _ hlook)
    refine ⟨hrouter, hholds, ?_, hset _ _ ⟨fd, .next s _ s' hreach ?_ hs'⟩⟩
    · intro j c hc
      by_cases hj : j = i
      · subst hj
        change c ∈ Function.update host.copies j copies j at hc
        rw [Function.update_self] at hc
        exact hcopies c hc
      · change c ∈ Function.update host.copies i copies j at hc
        rw [Function.update_of_ne hj] at hc
        exact h.copies j c hc
    · rintro m ⟨⟩
      exact ⟨h.router, h.holds, ha⟩
  | bringIn i it =>
    simp only [step] at hs
    split at hs
    · cases hs
    · rename_i copy copies hcopies
      obtain ⟨server, hbring, rfl⟩ := Option.map_eq_some_iff.mp hs
      obtain ⟨cache, hput, hbring⟩ := bind_eq_ok (toOption_ok _ _ hbring)
      obtain rfl := Except.ok.inj hbring
      have hkeeps := put_holds Hash host.server (OnDisk disk) h.holds copy.1 copy.2
        (h.copies i copy (by simp [hcopies])) it
      rw [hput] at hkeeps
      refine ⟨h.router, hkeeps, ?_, h.clients⟩
      intro j c hc
      by_cases hj : j = i
      · subst hj
        change c ∈ Function.update host.copies j copies j at hc
        rw [Function.update_self] at hc
        exact h.copies j c (by simp [hcopies, hc])
      · change c ∈ Function.update host.copies i copies j at hc
        rw [Function.update_of_ne hj] at hc
        exact h.copies j c hc

omit hwhole in
theorem start_faithful (server : HttpServer) (hserver : HttpServer.create regs = .ok server) :
    Faithful Hash regs disk ({ server := server } : HttpHost T) := by
  have hserver' := Except.ok.inj ((create_ok regs).symm.trans hserver)
  refine ⟨?_, ?_, fun i copy hc => absurd hc List.not_mem_nil, fun i s hi => by cases hi⟩
  · rw [← hserver']
  · rw [← hserver']
    exact create_holds Hash regs (OnDisk disk)

/-- Whatever the other clients do and whatever is in the cache: the bytes on the wire of
a client are those that the routes and the disk alone give for what it has sent. -/
theorem reach_hosted (server : HttpServer) (hserver : HttpServer.create regs = .ok server)
    (host : HttpHost T)
    (h : Reach (step Hash) (fun _ a => Undisturbed disk a) { server := server } host)
    (i : ℕ) (s : Served T Visit HttpService) (hi : host.clients i = some s)
    (herr : s.conn.hardErrors = 0) :
    ∃ answers c orders, heard {} (s.incoming.map (fun m => (m.receiveTime, m.data))) =
        .ok (answers, c) ∧ orders.length = answers.length ∧
      s.conn.wire <+: (List.zipWith (plainAnswer regs disk) orders answers).flatten ∧
      (s.conn.state_ = .kConnected → s.conn.control = .frames → s.conn.contextQueue_ = [] →
        s.calls = [] →
        s.conn.wire = (List.zipWith (plainAnswer regs disk) orders answers).flatten) := by
  have hfaithful : Faithful Hash regs disk host :=
    reach_invariant (step Hash) _ _ (Faithful Hash regs disk)
      (start_faithful Hash regs disk server hserver)
      (fun host a host' hh ha hs => step_faithful Hash regs disk hwhole host host' a hh ha hs) host h
  obtain ⟨fd, hreach⟩ := hfaithful.clients i s hi
  exact met_wire Hash regs disk hwhole fd i _ (fun _ m hok => hok m rfl) s hreach herr

omit hwhole in
theorem whole_root : Whole [.file (bytes "/") rootFile] (fun _ => some (bytes "hello")) := by
  intro sf hf _
  obtain rfl := offers_single _ _ _ hf
  refine ⟨rfl, ?_⟩
  rintro file ⟨⟩
  decide

def visitor (i : ℕ) : List (HostAct ℕ) :=
  [.own i (.conn .doPendingFunctor), .own i (.conn (.exec .again)), .own i (.conn .userReturns),
    .own i (.conn (.poll { rd := true })), .own i (.conn .handleEvent)]

def asks (i : ℕ) : HostAct ℕ :=
  .message i (onDisk (fun _ => some (bytes "hello"))) {} indexRequest.encode

def sends (i n : ℕ) : List (HostAct ℕ) :=
  [.own i .call, .own i (.conn (.exec .again)), .own i (.conn (.exec (.bytes n))),
    .own i (.conn (.exec .again))]

def twoVisitors : List (HostAct ℕ) :=
  [.newConnection 5, .newConnection 6] ++ visitor 1 ++ visitor 2 ++
    [asks 1, asks 2, .bringIn 1 .forward] ++ sends 1 84 ++ sends 1 5 ++ [.bringIn 2 .forward] ++
    sends 2 84 ++ sends 2 5 ++
    [.own 2 (.conn .userReturns), .own 2 (.conn (.poll { rd := true })),
      .own 2 (.conn .handleEvent), asks 2] ++ sends 2 89

omit hwhole in
theorem twoVisitors_undisturbed :
    ∀ a ∈ twoVisitors, Undisturbed (fun _ => some (bytes "hello")) a := by
  simp [twoVisitors, visitor, asks, sends, Undisturbed, onDisk]

omit hwhole in
theorem reach_hosted_twoVisitors :
    ∃ host s, run (step List.length) { server := ⟨Router.build [.file (bytes "/") rootFile],
        freshCache⟩ } twoVisitors = some host ∧ host.clients 2 = some s ∧
      ∃ answers c orders, heard {} (s.incoming.map (fun m => (m.receiveTime, m.data))) =
          .ok (answers, c) ∧ s.conn.wire = (List.zipWith (plainAnswer [.file (bytes "/") rootFile]
          (fun _ => some (bytes "hello"))) orders answers).flatten ∧ s.conn.wire.length = 178 := by
  have hrun : (run (step List.length) { server := ⟨Router.build [.file (bytes "/") rootFile],
      freshCache⟩ } twoVisitors).bind (fun host => (host.clients 2).map (fun s =>
        (s.conn.hardErrors, s.conn.wire.length,
          decide (s.conn.state_ = .kConnected ∧ s.conn.control = .frames),
          s.conn.contextQueue_.isEmpty && s.calls.isEmpty))) = some (0, 178, true, true) := by
    decide +kernel
  obtain ⟨host, hhost, hends⟩ := Option.bind_eq_some_iff.mp hrun
  obtain ⟨s, hs, hends⟩ := Option.map_eq_some_iff.mp hends
  simp only [Prod.mk.injEq, decide_eq_true_eq, Bool.and_eq_true, List.isEmpty_iff] at hends
  obtain ⟨herr, hlength, ⟨hstate, hcontrol⟩, hqueue, hcalls⟩ := hends
  have hreach := run_reach_actions (step List.length) _ _ _ host twoVisitors .refl
    twoVisitors_undisturbed hhost
  obtain ⟨answers, c, orders, hheard, -, -, hidle⟩ := reach_hosted List.length _ _ whole_root _
    (create_ok _) host hreach 2 s hs herr
  exact ⟨host, s, hhost, hs, answers, c, orders, hheard, hidle hstate hcontrol hqueue hcalls,
    hlength⟩

end HttpHost
end MuServer
