import MuServer.CallbackShutdown

/-!
# The echo server

It sends back what a read has brought and shuts the connection down. The first
read is all that it ever echoes: behind the `shutdown` the connection refuses
what later reads ask of it.
-/

set_option autoImplicit false

namespace MuServer
open Lib.Machine

namespace EchoServer

def onMessage : MessageCallback Unit Unit := fun _ _ _ buf => do
  let (data, buf) ← buf.retrieveAllAsString
  .ok ([.send data, .shutdown], (), buf)

def echo (m : Incoming Unit) : List Request := [.send m.data, .shutdown]

theorem readFd_onMessage (b : Buffer) (h : b.WF) (hr : b.readable = []) (m : Incoming Unit) :
    ∃ b' b'', b.readFd m.data = .ok b' ∧ onMessage () m.receiveTime () b' = .ok (echo m, (), b'') ∧
      b''.WF ∧ b''.readable = [] := by
  obtain ⟨b', hread, hwf, hb'⟩ := b.readFd_ok h m.data
  rw [hr, List.nil_append] at hb'
  obtain ⟨b'', hall, hwf', hb''⟩ := b'.retrieveAllAsString_ok hwf
  refine ⟨b', b'', hread, ?_, hwf', hb''⟩
  rw [onMessage, hall, hb']
  rfl

theorem replies_echo (ms : List (Incoming Unit)) (b : Buffer) (h : b.WF) (hr : b.readable = []) :
    ∃ c, Served.replies onMessage () b ms = .ok (ms.flatMap echo, (), c) ∧ c.WF ∧
      c.readable = [] := by
  induction ms generalizing b with
  | nil => exact ⟨b, rfl, h, hr⟩
  | cons m ms ih =>
    obtain ⟨b', b'', hread, hm, hwf, hb⟩ := readFd_onMessage b h hr m
    obtain ⟨c, hc, hcwf, hcr⟩ := ih b'' hwf hb
    refine ⟨c, ?_, hcwf, hcr⟩
    simp only [Served.replies, hread, hm, hc, bind, Except.bind, List.flatMap_cons]

variable {T : Type} [DecidableEq T]

theorem reach_calls (fd owner : ℕ) (s : Served T Unit Unit)
    (h : Reach (Served.step onMessage) (fun _ _ => True) (Served.start fd owner ()) s) :
    s.made ++ s.calls = s.incoming.flatMap echo ∧ s.inputBuffer_.WF ∧
      s.inputBuffer_.readable = [] := by
  have hr := Served.reach_replied onMessage fd owner () _ s h
  obtain ⟨c, hc, hwf, hread⟩ := replies_echo s.incoming (Buffer.create kInitialSize)
    (Buffer.create_wf _) (Buffer.create_readable _)
  obtain ⟨hcalls, hbuffer⟩ := Prod.mk.inj (Except.ok.inj (hc.symm.trans hr))
  obtain ⟨-, rfl⟩ := Prod.mk.inj hbuffer
  exact ⟨hcalls.symm, hwf, hread⟩

def firstRead (ms : List (Incoming Unit)) : Bytes := (ms.head?.map Incoming.data).getD []

theorem beforeShutdown_echo (made calls : List Request) (ms : List (Incoming Unit))
    (h : made ++ calls = ms.flatMap echo) :
    (handedOver (beforeShutdown made)).flatten <+: firstRead ms ∧
      (.shutdown ∈ made → (handedOver (beforeShutdown made)).flatten = firstRead ms) := by
  cases ms with
  | nil =>
    obtain ⟨rfl, -⟩ := List.append_eq_nil_iff.mp h
    exact ⟨List.nil_prefix, fun hm => absurd hm List.not_mem_nil⟩
  | cons m ms =>
    have hcons : (m::ms).flatMap echo = .send m.data::.shutdown::ms.flatMap echo := rfl
    rw [hcons] at h
    match made, h with
    | [], _ => exact ⟨List.nil_prefix, fun hm => absurd hm List.not_mem_nil⟩
    | [r], h =>
      obtain ⟨rfl, -⟩ := List.cons.inj h
      refine ⟨by simp [beforeShutdown, handedOver, Request.payload?, firstRead], fun hm => ?_⟩
      exact absurd (List.mem_singleton.mp hm) (by simp)
    | r::r'::made, h =>
      obtain ⟨rfl, h'⟩ := List.cons.inj h
      obtain ⟨rfl, -⟩ := List.cons.inj h'
      have hall : (handedOver (beforeShutdown (.send m.data::.shutdown::made))).flatten =
          firstRead (m::ms) := by
        simp [beforeShutdown, handedOver, Request.payload?, firstRead]
      exact ⟨⟨[], by rw [List.append_nil, hall]⟩, fun _ => hall⟩

/-- Whatever the socket takes and whenever it blocks, the peer gets the begin of
the bytes of the first read until a hard error, and a half-close comes behind all
of them; no read makes the callback fail. -/
theorem reach_echo (fd owner : ℕ) (s : Served T Unit Unit)
    (h : Reach (Served.step onMessage) (fun _ _ => True) (Served.start fd owner ()) s) :
    (s.conn.hardErrors = 0 → s.conn.wire <+: firstRead s.incoming) ∧
    (s.conn.halfCloses ≠ [] → s.conn.wire = firstRead s.incoming ∧ s.conn.contextQueue_ = []) ∧
    s.made ++ s.calls = s.incoming.flatMap echo ∧
    ∀ (next : Incoming Unit) (c : TcpConnection T), ∃ s', s.handleRead onMessage next c = .ok s' := by
  obtain ⟨hcalls, hwf, hread⟩ := reach_calls fd owner s h
  obtain ⟨hbegin, hwhole⟩ := beforeShutdown_echo s.made s.calls s.incoming hcalls
  refine ⟨fun herr => ?_, fun hh => ?_, hcalls, fun next c => ?_⟩
  · exact (Served.reach_wire_before onMessage fd owner () _ s h herr).trans hbegin
  · have hdata := Served.reach_incoming onMessage fd owner () _ (fun _ => True)
      (fun _ _ _ => trivial) s h
    have hne : [] ∉ handedOver s.made := by
      intro hm
      have hgrows := handedOver_grows s.made _ ⟨s.calls, hcalls⟩
      obtain ⟨r, hr, hp⟩ := List.mem_filterMap.mp (hgrows.subset hm)
      obtain ⟨n, hn, hr⟩ := List.mem_flatMap.mp hr
      simp only [echo, List.mem_cons, List.not_mem_nil, or_false] at hr
      rcases hr with rfl | rfl
      · exact (hdata n hn).1 (Option.some.inj hp)
      · exact absurd hp (by simp [Request.payload?])
    have hover := ((Served.reach_settled onMessage fd owner () _ s h).finished hne).closed hh
    exact ⟨hover.wire.trans (hwhole hover.called), hover.queue⟩
  · obtain ⟨b', b'', hb', hb'', -, -⟩ := readFd_onMessage s.inputBuffer_ hwf hread next
    simp only [Served.handleRead, hb', hb'', bind, Except.bind, Except.ok.injEq, exists_eq']

def twoBytes : List (ServeAct ℕ Unit) :=
  [.conn .doPendingFunctor, .conn (.exec .again), .conn .userReturns,
    .conn (.poll { rd := true }), .conn .handleEvent,
    .message { surroundings := (), receiveTime := {}, data := [7, 9] }, .call, .conn (.exec .again),
    .conn (.exec (.bytes 2)), .conn (.exec .again), .call, .conn (.exec .again),
    .conn (.exec .again), .conn .userReturns]

theorem reach_echo_twoBytes :
    ∃ s, run (Served.step onMessage) (Served.start (T := ℕ) 5 0 ()) twoBytes = some s ∧
      s.conn.halfCloses ≠ [] ∧ s.conn.wire = [7, 9] := by
  have hrun : (run (Served.step onMessage) (Served.start (T := ℕ) 5 0 ()) twoBytes).map
      (fun s => (s.incoming, s.conn.halfCloses)) =
        some ([{ surroundings := (), receiveTime := {}, data := [7, 9] }], [(none, 1)]) := by
    decide +kernel
  obtain ⟨s, hs, hends⟩ := Option.map_eq_some_iff.mp hrun
  obtain ⟨hin, hh⟩ := Prod.mk.inj hends
  have hreach := run_reach_any _ _ s twoBytes hs
  have hne : s.conn.halfCloses ≠ [] := by
    rw [hh]
    exact List.cons_ne_nil _ _
  have hwire := ((reach_echo 5 0 s hreach).2.1 hne).1
  rw [hin] at hwire
  exact ⟨s, hs, hne, hwire⟩

end EchoServer
end MuServer
