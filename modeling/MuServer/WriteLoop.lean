import MuServer.Lib.Machine
import MuServer.TcpConnection

/-!
# Whether the loop of `doWriting` ends

Every round takes bytes from the queue, takes a finished context off it or
leaves the loop, except one: `sendfile` returns 0 although a part of the file
is still to be sent, since the file was made shorter. The loop then goes round
with nothing changed, for as long as the answer is 0.
-/

set_option autoImplicit false

namespace MuServer

open Lib

namespace Context

def isFile : Context → Bool
  | .data _ => false
  | .file _ => true

/-- The answers of `write` and `sendfile`: no byte is taken where none was
asked for, or where the file has become shorter. -/
def Answers (ctx : Context) : SocketResult → Prop
  | .bytes n => (ctx.writeToSocket n).isSome = true
      ∧ (n = 0 → ctx.remaining = 0 ∨ ctx.isFile = true)
  | .again | .fails => True

end Context

namespace TcpConnection

variable {T : Type}

def rounds (c : TcpConnection T) (results : ℕ → SocketResult) : ℕ → Option (TcpConnection T)
  | 0 => some c
  | k+1 => (c.rounds results k).bind (fun d =>
      match d.control with
      | .doWriting => d.doWriting (results k)
      | _ => some d)

/-- Every call of the run is answered as `write` and `sendfile` do. -/
def Served (c : TcpConnection T) (results : ℕ → SocketResult) : Prop :=
  ∀ k d call ctx rest, c.rounds results k = some d → d.control = .doWriting →
    d.contextQueue_ = (call, ctx)::rest → ctx.Answers (results k)

def Terminates (c : TcpConnection T) (results : ℕ → SocketResult) : Prop :=
  ∃ k d, c.rounds results k = some d ∧ d.control ≠ .doWriting

/-- A file has bytes to be sent, and from now on `sendfile` finds none. -/
def Starves (c : TcpConnection T) (results : ℕ → SocketResult) : Prop :=
  ∃ n d call file rest, c.rounds results n = some d ∧ d.control = .doWriting
    ∧ d.contextQueue_ = (call, .file file)::rest ∧ 0 < file.remaining
    ∧ ∀ k, n ≤ k → results k = .bytes 0

def queueSize (c : TcpConnection T) : ℕ := (c.contextQueue_.map (fun p => p.2.remaining+1)).sum

theorem rounds_next (c d : TcpConnection T) (results : ℕ → SocketResult) (k : ℕ)
    (hd : c.rounds results k = some d) (hcontrol : d.control = .doWriting) :
    c.rounds results (k+1) = d.doWriting (results k) := by
  simp [rounds, hd, hcontrol]

theorem rounds_ended (c d : TcpConnection T) (results : ℕ → SocketResult) (k j : ℕ) (hkj : k ≤ j)
    (hd : c.rounds results k = some d) (hcontrol : d.control ≠ .doWriting) :
    c.rounds results j = some d := by
  induction j, hkj using Nat.le_induction with
  | base => exact hd
  | succ j _ ih =>
    rw [rounds, ih, Option.bind_some]
    split
    · exact absurd ‹_› hcontrol
    · rfl

/-- A round ends the loop, makes the queue smaller, or finds that the front
file gives nothing. -/
theorem doWriting_progress (c c' : TcpConnection T) (result : SocketResult)
    (hs : c.doWriting result = some c')
    (hanswer : ∀ call ctx rest, c.contextQueue_ = (call, ctx)::rest → ctx.Answers result) :
    c'.control ≠ .doWriting ∨ c'.queueSize < c.queueSize
      ∨ (c'.queueSize = c.queueSize ∧ result = .bytes 0
        ∧ ∃ call file rest, c.contextQueue_ = (call, .file file)::rest ∧ 0 < file.remaining) := by
  cases doWriting_round c c' result hs with
  | empty | nothing => simp [frames]
  | blocks call ctx rest hq =>
    left
    unfold blocked frames
    split <;> simp
  | fails => simp [writeFails, frames]
  | drains call ctx ctx' out n hq hw hc =>
    right; left
    rw [queueSize, queueSize, drained_queue, hq]
    simp [took, issue, hc]
  | progress call ctx ctx' rest out n hq hw hmore =>
    right
    have hle := hw.le_remaining
    have hrest := hw.remaining_eq
    by_cases hc : ctx'.isComplete = true
    · left
      simp [queueSize, took, issue, hc, hq]
    · have hsize : (c.issue.took call ctx' rest out).queueSize = c.queueSize-n := by
        simp only [queueSize, took, issue, hc, hq, Bool.false_eq_true, if_false, List.map_cons,
          List.sum_cons, hrest]
        omega
      have hpos : 0 < c.queueSize := by simp [queueSize, hq]
      by_cases hn : n = 0
      · right
        subst hn
        rw [Context.isComplete_iff, hrest] at hc
        have hpos : 0 < ctx.remaining := by omega
        have hzero := (hanswer call ctx rest hq).2 rfl
        cases ctx with
        | data d =>
          rcases hzero with hnone | hfile
          · omega
          · simp [Context.isFile] at hfile
        | file f => exact ⟨hsize, rfl, call, f, rest, hq, hpos⟩
      · left
        omega

theorem doWriting_some (c : TcpConnection T) (result : SocketResult)
    (hanswer : ∀ call ctx rest, c.contextQueue_ = (call, ctx)::rest → ctx.Answers result) :
    ∃ c', c.doWriting result = some c' := by
  unfold doWriting
  split
  · exact ⟨_, rfl⟩
  · have hanswers := hanswer _ _ _ ‹_›
    cases result with
    | bytes n =>
      obtain ⟨r, hr⟩ := Option.isSome_iff_exists.mp hanswers.1
      simp only [afterWrite, hr]
      split <;> exact ⟨_, rfl⟩
    | again =>
      simp only [afterWrite]
      split <;> exact ⟨_, rfl⟩
    | fails => exact ⟨_, rfl⟩

theorem rounds_some (c : TcpConnection T) (results : ℕ → SocketResult) (h : c.Served results)
    (k : ℕ) : ∃ d, c.rounds results k = some d := by
  induction k with
  | zero => exact ⟨c, rfl⟩
  | succ k ih =>
    obtain ⟨d, hd⟩ := ih
    by_cases hcontrol : d.control = .doWriting
    · rw [rounds_next c d results k hd hcontrol]
      exact doWriting_some d _ (fun call ctx rest => h k d call ctx rest hd hcontrol)
    · exact ⟨d, rounds_ended c d results k (k+1) (Nat.le_succ k) hd hcontrol⟩

theorem doWriting_starves (c : TcpConnection T) (call : Call T) (file : FileContext)
    (rest : List (Call T × Context)) (hq : c.contextQueue_ = (call, .file file)::rest)
    (hremaining : 0 < file.remaining) (hcontrol : c.control = .doWriting) :
    ∃ c', c.doWriting (.bytes 0) = some c' ∧ c'.control = .doWriting
      ∧ c'.contextQueue_ = (call, .file file)::rest := by
  have hcomplete : file.isComplete = false := by
    apply Bool.eq_false_of_not_eq_true
    intro hc
    have hzero := (Context.isComplete_iff (.file file)).mp hc
    simp only [Context.remaining] at hzero
    omega
  refine ⟨c.issue.took call (.file file) rest [], ?_, hcontrol, ?_⟩
  · simp [doWriting, hq, afterWrite, Context.writeToSocket, FileContext.writeToSocket,
      Context.isComplete, hcomplete]
  · simp [took, Context.isComplete, hcomplete]

theorem rounds_starve (c d : TcpConnection T) (results : ℕ → SocketResult) (n : ℕ)
    (call : Call T) (file : FileContext) (rest : List (Call T × Context))
    (hd : c.rounds results n = some d) (hcontrol : d.control = .doWriting)
    (hq : d.contextQueue_ = (call, .file file)::rest) (hremaining : 0 < file.remaining)
    (hzero : ∀ k, n ≤ k → results k = .bytes 0) (k : ℕ) (hk : n ≤ k) :
    ∃ e, c.rounds results k = some e ∧ e.control = .doWriting
      ∧ e.contextQueue_ = (call, .file file)::rest := by
  induction k, hk using Nat.le_induction with
  | base => exact ⟨d, hd, hcontrol, hq⟩
  | succ k hk ih =>
    obtain ⟨e, he, hecontrol, heq⟩ := ih
    obtain ⟨f, hf, hfcontrol, hfq⟩ := doWriting_starves e call file rest heq hremaining hecontrol
    refine ⟨f, ?_, hfcontrol, hfq⟩
    rw [rounds_next c e results k he hecontrol, hzero k hk, hf]

theorem starves_never (c : TcpConnection T) (results : ℕ → SocketResult)
    (hstarves : c.Starves results) : ¬ c.Terminates results := by
  obtain ⟨n, d, call, file, rest, hd, hcontrol, hq, hremaining, hzero⟩ := hstarves
  rintro ⟨k, e, he, hecontrol⟩
  obtain ⟨f, hf, hfcontrol, -⟩ := rounds_starve c d results n call file rest hd hcontrol hq
    hremaining hzero (max n k) (le_max_left n k)
  rw [rounds_ended c e results k _ (le_max_right n k) he hecontrol] at hf
  obtain rfl := Option.some.inj hf
  exact hecontrol hfcontrol

/-- The loop ends unless a file gives nothing for ever. -/
theorem terminates_iff (c : TcpConnection T) (results : ℕ → SocketResult)
    (h : c.Served results) : c.Terminates results ↔ ¬ c.Starves results := by
  constructor
  · intro hends hstarves
    exact starves_never c results hstarves hends
  · intro hfed
    choose state hstate using rounds_some c results h
    have hround : ∀ k, (state k).control = .doWriting →
        (state k).doWriting (results k) = some (state (k+1)) := by
      intro k hcontrol
      rw [← rounds_next c _ results k (hstate k) hcontrol]
      exact hstate (k+1)
    have hsplit := Machine.ends_or_idles (fun k => (state k).control ≠ .doWriting)
      (fun k => results k = .bytes 0 ∧ (state k).control = .doWriting
        ∧ ∃ call file rest, (state k).contextQueue_ = (call, .file file)::rest
          ∧ 0 < file.remaining) (fun k => (state k).queueSize) (by
      intro k hcontrol
      rw [not_not] at hcontrol
      have hprogress := doWriting_progress _ _ _ (hround k hcontrol)
        (fun call ctx rest => h k _ call ctx rest (hstate k) hcontrol)
      rcases hprogress with hend | hless | ⟨heq, hzero, hfile⟩
      · exact Or.inl hend
      · exact Or.inr (Or.inl hless)
      · exact Or.inr (Or.inr ⟨heq, hzero, hcontrol, hfile⟩))
    rcases hsplit with ⟨k, hend⟩ | ⟨n, hidle⟩
    · exact ⟨k, state k, hstate k, hend⟩
    · obtain ⟨-, hcontrol, call, file, rest, hq, hremaining⟩ := hidle n (le_refl n)
      exact absurd ⟨n, state n, call, file, rest, hstate n, hcontrol, hq, hremaining,
        fun k hk => (hidle k hk).1⟩ hfed

def writing (ctx : Context) : TcpConnection ℕ :=
  { start 7 1 with
    contextQueue_ := [(⟨none, 0⟩, ctx)]
    control := .doWriting }

/-- A byte is sent at once. -/
theorem terminates_iff_byte : ¬ (writing (.data (.ofData [1]))).Starves
    (fun k => if k = 0 then .bytes 1 else .again) := by
  refine (terminates_iff _ _ ?_).mp ⟨2, _, rfl, by simp [frames]⟩
  intro k d call ctx rest hd hcontrol hq
  cases k with
  | zero =>
    obtain rfl := Option.some.inj hd
    obtain ⟨hp, -⟩ := List.cons.inj hq
    obtain ⟨-, rfl⟩ := Prod.mk.inj hp
    exact ⟨rfl, by simp⟩
  | succ k => trivial

def emptied : FileContext := .ofFile ⟨[], 0, 1⟩

theorem doWriting_spins : ¬ ∀ (c : TcpConnection ℕ) (results : ℕ → SocketResult),
    c.Served results → c.Terminates results := by
  intro h
  have hstays := rounds_starve (writing (.file emptied)) _ (fun _ => .bytes 0) 0 ⟨none, 0⟩ emptied
    [] rfl rfl rfl (by decide) (fun _ _ => rfl)
  have hserved : (writing (.file emptied)).Served (fun _ => .bytes 0) := by
    intro k d call ctx rest hd hcontrol hq
    obtain ⟨e, he, -, heq⟩ := hstays k (Nat.zero_le k)
    rw [hd] at he
    obtain rfl := Option.some.inj he
    rw [hq] at heq
    obtain ⟨hp, -⟩ := List.cons.inj heq
    obtain ⟨-, rfl⟩ := Prod.mk.inj hp
    exact ⟨rfl, fun _ => Or.inr rfl⟩
  exact starves_never _ _ ⟨0, _, _, emptied, [], rfl, rfl, rfl, by decide, fun _ _ => rfl⟩
    (h _ _ hserved)

end TcpConnection

end MuServer
