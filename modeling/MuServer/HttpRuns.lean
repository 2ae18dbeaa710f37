import MuServer.HttpStream

/-!
# Two runs of the parser

A run that takes a whole request is compared with the runs over the same bytes
followed by more of them, and over a proper prefix of them. The two contexts
agree up to the fields that an earlier request leaves behind: the body, which
only a length header makes the parser write, and the time of the call.
-/

set_option autoImplicit false

namespace MuServer
open Lib.Search

def Scan.Took (s : Scan) : Prop := s.done = true ∧ s.context.state_ = .kGotAll

structure Beside (body : Bytes) (s u : Scan) : Prop where
  state : u.context.state_ = s.context.state_
  request : ∃ t, u.context.request_ = s.context.request_.reframe body t
  done : u.done = s.done
  hasMore : u.hasMore = s.hasMore
  content_Length : u.content_Length = s.content_Length

/-- The body a request ends with when `body` was there before it. -/
def bodyAfter (r : HttpRequest) (body : Bytes) : Bytes :=
  if r.getHeader kContentLength = [] then body else r.body_

theorem addHeaders_reframe (r : HttpRequest) (body line : Bytes) (t : TimeStamp) (colon : ℕ) :
    (r.reframe body t).addHeaders line colon = (r.addHeaders line colon).reframe body t := rfl

theorem getHeader_reframe (r : HttpRequest) (body field : Bytes) (t : TimeStamp) :
    (r.reframe body t).getHeader field = r.getHeader field := rfl

theorem line_beside (stale stale' : Bytes) (t t' : TimeStamp) (body tail : Bytes) (s u s' : Scan)
    (hb : Beside body s u) (hu : u.unread = s.unread ++ tail)
    (h : scanRequestLine stale t s = .ok s') (hd : s'.done = true) :
    ∃ u', scanRequestLine stale' t' u = .ok u' ∧ Beside body s' u' ∧
      u'.unread = s'.unread ++ tail := by
  obtain ⟨t0, hr⟩ := hb.request
  obtain ⟨done, request, hp, ⟨rfl, hle, rfl⟩ | ⟨-, rfl⟩⟩ := scanRequestLine_ok stale t s s' h
  · have hsearch : search kCRLF u.unread = search kCRLF s.unread := by
      rw [hu]
      exact search_append kCRLF s.unread tail (by omega)
    have hul : s.unread.length ≤ u.unread.length := by
      rw [hu, List.length_append]
      exact Nat.le_add_right _ _
    have htake : (u.unread ++ stale').take (search kCRLF s.unread+2) =
        (s.unread ++ stale).take (search kCRLF s.unread+2) := by
      rw [hu, List.append_assoc, List.take_append_of_le_length hle,
        List.take_append_of_le_length hle]
    have hpast : search kCRLF s.unread+2-(u.unread ++ stale').length =
        search kCRLF s.unread+2-(s.unread ++ stale).length := by
      simp only [List.length_append]
      omega
    have hskip : skip u.unread (search kCRLF s.unread+2) =
        .ok (s.unread.drop (search kCRLF s.unread+2) ++ tail) := by
      rw [skip, if_pos (by omega), hu, List.drop_append_of_le_length hle]
    simp only [scanRequestLine, hsearch, htake, hpast, hr, parseRequestLine_reframe, hp,
      Except.map, bind, Except.bind, if_true, hskip]
    exact ⟨_, rfl, ⟨rfl, ⟨t', rfl⟩, rfl, hb.hasMore, hb.content_Length⟩, rfl⟩
  · exact absurd hd (by simp [Scan.setRequest])

theorem header_beside (body tail : Bytes) (s u s' : Scan) (hb : Beside body s u)
    (hu : u.unread = s.unread ++ tail) (h : scanHeader s = .ok s') :
    ∃ u', scanHeader u = .ok u' ∧ Beside body s' u' ∧ u'.unread = s'.unread ++ tail := by
  obtain ⟨t0, hr⟩ := hb.request
  obtain ⟨hle, hcases⟩ := scanHeader_ok s s' h
  have hsearch : search kCRLF u.unread = search kCRLF s.unread := by
    rw [hu]
    exact search_append kCRLF s.unread tail (by omega)
  have hul : s.unread.length ≤ u.unread.length := by
    rw [hu, List.length_append]
    exact Nat.le_add_right _ _
  have htake : u.unread.take (search kCRLF s.unread) = s.unread.take (search kCRLF s.unread) := by
    rw [hu, List.take_append_of_le_length (by omega)]
  have hskip : skip u.unread (search kCRLF s.unread+2) =
      .ok (s.unread.drop (search kCRLF s.unread+2) ++ tail) := by
    rw [skip, if_pos (by omega), hu, List.drop_append_of_le_length hle]
  rw [scanHeader, hsearch, htake]
  generalize s.unread.take (search kCRLF s.unread) = line at hcases ⊢
  rcases hcases with ⟨hcolon, hrest, rfl⟩ | ⟨hcolon, hcl, v, hv, rfl⟩ | ⟨hcolon, hcl, rfl⟩
  · rw [scanHeaderLine_field u _ line hcolon, hskip, hr, addHeaders_reframe]
    refine ⟨_, if_neg (by simp [hrest]), ⟨hb.state, ⟨t0, rfl⟩, hb.done, hb.hasMore,
      hb.content_Length⟩, rfl⟩
  · have hcl' : u.context.request_.getHeader kContentLength ≠ [] := by
      rw [hr, getHeader_reframe]
      exact hcl
    rw [scanHeaderLine_length u _ line (not_not.mpr hcolon) hcl', hr, getHeader_reframe, hv, hskip]
    exact ⟨_, rfl, ⟨rfl, ⟨t0, hr⟩, hb.done, hb.hasMore, rfl⟩, rfl⟩
  · have hcl' : ¬ u.context.request_.getHeader kContentLength ≠ [] := by
      rw [hr, getHeader_reframe]
      exact not_not.mpr hcl
    rw [scanHeaderLine_end u _ line (not_not.mpr hcolon) hcl', hskip]
    exact ⟨_, rfl, ⟨rfl, ⟨t0, hr⟩, hb.done, rfl, hb.content_Length⟩, rfl⟩

/-- Up to the body the longer run makes the steps of the shorter one. -/
theorem scanStep_beside (stale stale' : Bytes) (t t' : TimeStamp) (body tail : Bytes)
    (s u s' : Scan) (hb : Beside body s u) (hu : u.unread = s.unread ++ tail)
    (hbody : s.context.state_ ≠ .kExpectRequestBody) (hgot : s.context.state_ ≠ .kGotAll)
    (h : scanStep stale t s = .ok s') (hd : s'.done = true) :
    ∃ u', scanStep stale' t' u = .ok u' ∧ Beside body s' u' ∧ u'.unread = s'.unread ++ tail := by
  unfold scanStep at h ⊢
  rw [hb.state]
  cases hst : s.context.state_ with
  | kExpectRequestLine =>
    rw [hst] at h
    exact line_beside stale stale' t t' body tail s u s' hb hu h hd
  | kExpectRequestHeader =>
    rw [hst] at h
    exact header_beside body tail s u s' hb hu h
  | kExpectRequestBody => exact absurd hst hbody
  | kGotAll => exact absurd hst hgot

/-- A pass enters the body only under a length header and the last state only
without one, and a refused request line ends the run. -/
theorem scanStep_enters (stale : Bytes) (t : TimeStamp) (s s' : Scan) (hd : s.done = true)
    (hbody : s.context.state_ ≠ .kExpectRequestBody) (hgot : s.context.state_ ≠ .kGotAll)
    (h : scanStep stale t s = .ok s') :
    (s'.context.state_ = .kExpectRequestBody →
      s'.context.request_.getHeader kContentLength ≠ []) ∧
    (s'.context.state_ = .kGotAll →
      s'.context.request_.getHeader kContentLength = [] ∧ s'.hasMore = false) ∧
    (s'.done = true ∨ s'.hasMore = false) := by
  unfold scanStep at h
  cases hst : s.context.state_ with
  | kExpectRequestLine =>
    rw [hst] at h
    obtain ⟨done, request, -, ⟨rfl, -, rfl⟩ | ⟨-, rfl⟩⟩ := scanRequestLine_ok stale t s s' h
    · exact ⟨by simp [Scan.setState], by simp [Scan.setState], Or.inl rfl⟩
    · simp [Scan.setRequest, hst]
  | kExpectRequestHeader =>
    rw [hst] at h
    obtain ⟨-, ⟨-, -, rfl⟩ | ⟨-, hcl, v, -, rfl⟩ | ⟨-, hcl, rfl⟩⟩ := scanHeader_ok s s' h
    · exact ⟨by simp [Scan.setRequest, hst], by simp [Scan.setRequest, hst], Or.inl hd⟩
    · exact ⟨fun _ => hcl, by simp [Scan.setState], Or.inl hd⟩
    · exact ⟨by simp [Scan.setState], fun _ => ⟨hcl, rfl⟩, Or.inl hd⟩
  | kExpectRequestBody => exact absurd hst hbody
  | kGotAll => exact absurd hst hgot

theorem scanBody_took (stale : Bytes) (t : TimeStamp) (n : ℕ) (s f : Scan)
    (hm : s.hasMore = true) (hst : s.context.state_ = .kExpectRequestBody)
    (h : scanLoop stale t (n+1) s = .ok f) (hf : f.Took) :
    s.content_Length ≤ s.unread.length ∧
      f = ({ s with unread := s.unread.drop s.content_Length, hasMore := false }.setRequest
        (s.context.request_.setBody (s.unread.take s.content_Length))).setState .kGotAll := by
  by_cases hle : s.content_Length ≤ s.unread.length
  · rw [scanLoop_step stale t n s _ hm (by rw [scanStep, hst, scanBody]; exact if_pos hle),
      scanLoop_stop _ _ _ _ rfl] at h
    exact ⟨hle, (Except.ok.inj h).symm⟩
  · rw [scanLoop_step stale t n s _ hm (by rw [scanStep, hst, scanBody]; exact if_neg hle),
      scanLoop_stop _ _ _ _ rfl] at h
    obtain rfl := Except.ok.inj h
    exact absurd (hst.symm.trans hf.2) (by simp)

theorem scanBody_extend (stale stale' : Bytes) (t t' : TimeStamp) (body tail : Bytes) (n : ℕ)
    (s u f : Scan) (hb : Beside body s u) (hu : u.unread = s.unread ++ tail)
    (hd : s.done = true) (hm : s.hasMore = true)
    (hst : s.context.state_ = .kExpectRequestBody)
    (hcl : s.context.request_.getHeader kContentLength ≠ [])
    (h : scanLoop stale t (n+1) s = .ok f) (hf : f.Took) :
    ∃ f', scanLoop stale' t' (n+1) u = .ok f' ∧ f'.Took ∧ f'.unread = f.unread ++ tail ∧
      ∃ t0, f'.context.request_ =
        f.context.request_.reframe (bodyAfter f.context.request_ body) t0 := by
  obtain ⟨t0, hr⟩ := hb.request
  obtain ⟨hle, rfl⟩ := scanBody_took stale t n s f hm hst h hf
  have hle' : u.content_Length ≤ u.unread.length := by
    rw [hb.content_Length, hu, List.length_append]
    omega
  rw [scanLoop_step stale' t' n u _ (hb.hasMore.trans hm)
    (by rw [scanStep, hb.state, hst, scanBody]; exact if_pos hle'), scanLoop_stop _ _ _ _ rfl]
  refine ⟨_, rfl, ⟨hb.done.trans hd, rfl⟩, ?_, t0, ?_⟩
  · simp only [Scan.setRequest, Scan.setState, hb.content_Length, hu]
    exact List.drop_append_of_le_length hle
  · have htake : u.unread.take u.content_Length = s.unread.take s.content_Length := by
      rw [hb.content_Length, hu, List.take_append_of_le_length hle]
    have hafter : bodyAfter (s.context.request_.setBody (s.unread.take s.content_Length)) body =
        s.unread.take s.content_Length := if_neg hcl
    simp only [Scan.setRequest, Scan.setState, htake, hr, hafter]
    rfl

/-- A run that takes a request takes it from the same bytes with more behind
them, and leaves these. -/
theorem scanLoop_extend (stale stale' : Bytes) (t t' : TimeStamp) (body tail : Bytes) (n : ℕ)
    (s u f : Scan) (hb : Beside body s u) (hu : u.unread = s.unread ++ tail)
    (hd : s.done = true) (hm : s.hasMore = true) (hgot : s.context.state_ ≠ .kGotAll)
    (hcl : s.context.state_ = .kExpectRequestBody →
      s.context.request_.getHeader kContentLength ≠ [])
    (h : scanLoop stale t n s = .ok f) (hf : f.Took) :
    ∃ f', scanLoop stale' t' n u = .ok f' ∧ f'.Took ∧ f'.unread = f.unread ++ tail ∧
      ∃ t0, f'.context.request_ =
        f.context.request_.reframe (bodyAfter f.context.request_ body) t0 := by
  induction n generalizing s u with
  | zero => simp [scanLoop, hm] at h
  | succ n ih =>
    by_cases hbody : s.context.state_ = .kExpectRequestBody
    · exact scanBody_extend stale stale' t t' body tail n s u f hb hu hd hm hbody (hcl hbody) h hf
    cases hs : scanStep stale t s with
    | error e => simp [scanLoop, hm, hs, bind, Except.bind] at h
    | ok s' =>
      rw [scanLoop_step stale t n s s' hm hs] at h
      obtain ⟨hin, hout, hlast⟩ := scanStep_enters stale t s s' hd hbody hgot hs
      have hstop : s'.hasMore = false → f = s' := by
        intro hm'
        rw [scanLoop_stop stale t n s' hm'] at h
        exact (Except.ok.inj h).symm
      have hd' : s'.done = true := by
        rcases hlast with hd' | hm'
        · exact hd'
        · exact hstop hm' ▸ hf.1
      obtain ⟨u', hu', hb', hun'⟩ :=
        scanStep_beside stale stale' t t' body tail s u s' hb hu hbody hgot hs hd'
      rw [scanLoop_step stale' t' n u u' (hb.hasMore.trans hm) hu']
      by_cases hm' : s'.hasMore = true
      · exact ih s' u' hb' hun' hd' hm' (fun hgot' => by simp [(hout hgot').2] at hm') hin h
      · obtain rfl := hstop (by simpa using hm')
        obtain ⟨t0, hr⟩ := hb'.request
        refine ⟨u', scanLoop_stop stale' t' n u' (hb'.hasMore.trans (by simpa using hm')),
          ⟨hb'.done.trans hd', hb'.state.trans hf.2⟩, hun', t0, ?_⟩
        rw [bodyAfter, if_pos (hout hf.2).1, hr]

/-- A run over a proper prefix of the bytes of a request, if it ends, has been
refused at the request line or has stopped before the body. -/
theorem scanLoop_cut (stale stale' : Bytes) (t t' : TimeStamp) (body tail : Bytes)
    (htail : tail ≠ []) (m n : ℕ) (s u f f' : Scan) (hb : Beside body s u)
    (hu : u.unread = s.unread ++ tail) (hd : s.done = true) (hm : s.hasMore = true)
    (hgot : s.context.state_ ≠ .kGotAll)
    (h : scanLoop stale t m s = .ok f) (h' : scanLoop stale' t' n u = .ok f')
    (hf' : f'.Took) (hall : f'.unread = []) :
    f.done = false ∨ f.context.state_ = .kExpectRequestBody := by
  induction m generalizing s u n with
  | zero => simp [scanLoop, hm] at h
  | succ m ih =>
    cases n with
    | zero => simp [scanLoop, hb.hasMore, hm] at h'
    | succ n =>
      by_cases hbody : s.context.state_ = .kExpectRequestBody
      · obtain ⟨hle, rfl⟩ := scanBody_took stale' t' n u f' (hb.hasMore.trans hm)
          (hb.state.trans hbody) h' hf'
        have hlong : ¬ s.content_Length ≤ s.unread.length := by
          have htl := List.length_pos_of_ne_nil htail
          have hl := List.drop_eq_nil_iff.mp hall
          rw [hb.content_Length, hu, List.length_append] at hl
          omega
        rw [scanLoop_step stale t m s _ hm
          (by rw [scanStep, hbody, scanBody]; exact if_neg hlong), scanLoop_stop _ _ _ _ rfl] at h
        obtain rfl := Except.ok.inj h
        exact Or.inr hbody
      cases hs : scanStep stale t s with
      | error e => simp [scanLoop, hm, hs, bind, Except.bind] at h
      | ok s' =>
        rw [scanLoop_step stale t m s s' hm hs] at h
        obtain ⟨-, hout, hlast⟩ := scanStep_enters stale t s s' hd hbody hgot hs
        by_cases hd' : s'.done = true
        · obtain ⟨u', hu', hb', hun'⟩ :=
            scanStep_beside stale stale' t t' body tail s u s' hb hu hbody hgot hs hd'
          rw [scanLoop_step stale' t' n u u' (hb.hasMore.trans hm) hu'] at h'
          by_cases hgot' : s'.context.state_ = .kGotAll
          · rw [scanLoop_stop stale' t' n u' (hb'.hasMore.trans (hout hgot').2)] at h'
            obtain rfl := Except.ok.inj h'
            exact absurd (hun'.symm.trans hall) (by simp [htail])
          · by_cases hm' : s'.hasMore = true
            · exact ih n s' u' hb' hun' hd' hm' hgot' h h'
            · rw [scanLoop_stop stale' t' n u' (by rw [hb'.hasMore]; simpa using hm')] at h'
              obtain rfl := Except.ok.inj h'
              exact absurd (hb'.state.symm.trans hf'.2) hgot'
        · have hm' : s'.hasMore = false := hlast.resolve_left hd'
          rw [scanLoop_stop stale t m s' hm'] at h
          obtain rfl := Except.ok.inj h
          exact Or.inl (by simpa using hd')

end MuServer
