import MuServer.LogStream
import MuServer.TimeStamp

/-!
# Records of the synchronous logger

A `Logger` streams its header when it is made, the user's values while it
lives, and the place in the source and a newline when it goes away. Each of
them stands in the buffer or not, by itself; `g_output` gets what stands there.
-/

set_option autoImplicit false

namespace MuServer

structure Tm where
  tm_year : ℤ
  tm_mon : ℤ
  tm_mday : ℤ
  tm_hour : ℤ
  tm_min : ℤ
  tm_sec : ℤ

def spaced (width : ℕ) (v : ℤ) : Bytes :=
  List.replicate (width-(integerText v).length) (byte ' ') ++ integerText v

def zeroed (width : ℕ) (v : ℤ) : Bytes :=
  (if v < 0 then [byte '-'] else [])
    ++ List.replicate (width-(integerText v).length) (byte '0') ++ numeral 10 decDigit v.natAbs

namespace Logger

inductive LogLevel where
  | TRACE
  | DEBUG
  | INFO
  | WARN
  | ERROR
  | FATAL
  deriving DecidableEq, Repr

def logLevelName : LogLevel → Bytes
  | .TRACE => bytes "TRACE "
  | .DEBUG => bytes "DEBUG "
  | .INFO => bytes "INFO  "
  | .WARN => bytes "WARN  "
  | .ERROR => bytes "ERROR "
  | .FATAL => bytes "FATAL "

structure Surroundings where
  now : TimeStamp
  localtime : ℤ → Tm
  tid : Int32
  errno : Int32
  strerror : Int32 → Bytes

structure SourceFile where
  data_ : Bytes

def SourceFile.create (filename : Bytes) : SourceFile where
  data_ := ((LogStream.cText filename).reverse.takeWhile (fun c => c ≠ byte '/')).reverse

structure Impl where
  basename_ : SourceFile
  line_ : Int32
  level_ : LogLevel
  stream_ : FixedBuffer kSmallBuffer

def formatTime (around : Surroundings) : List Value :=
  let seconds := around.now.microsecondsSinceEpoch_.tdiv kMicroSecondsPerSecond
  let microSeconds := around.now.microsecondsSinceEpoch_.tmod kMicroSecondsPerSecond
  let tm := around.localtime seconds
  let timer := spaced 4 (tm.tm_year+1900) ++ bytes "/" ++ zeroed 2 (tm.tm_mon+1) ++ bytes "/"
    ++ zeroed 2 tm.tm_mday ++ bytes " " ++ zeroed 2 tm.tm_hour ++ bytes ":"
    ++ zeroed 2 tm.tm_min ++ bytes ":" ++ zeroed 2 tm.tm_sec
  [.append (timer.take 63), .append ((zeroed 6 microSeconds).take 31)]

def Impl.header (around : Surroundings) (level : LogLevel) (saved_errno : Int32) : List Value :=
  formatTime around
    ++ [.append (integerText around.tid.toInt), .cString (some (bytes " ")),
      .append (logLevelName level)]
    ++ if saved_errno ≠ 0 then
      [.cString (some (around.strerror saved_errno)), .cString (some (bytes " "))] else []

def Impl.create (around : Surroundings) (level : LogLevel) (saved_errno : Int32)
    (file : SourceFile) (line : Int32) : Except Fault Impl :=
  (LogStream.putAll .create (header around level saved_errno)).map (fun stream_ =>
    { basename_ := file, line_ := line, level_ := level, stream_ := stream_ })

def Impl.put (impl : Impl) (vs : List Value) : Except Fault Impl :=
  (LogStream.putAll impl.stream_ vs).map (fun stream_ => { impl with stream_ := stream_ })

def Impl.tail (impl : Impl) : List Value :=
  [.append impl.basename_.data_, .cString (some (bytes "-")), .int impl.line_,
    .cString (some (bytes "\n"))]

def Impl.finish (impl : Impl) : Except Fault Impl := impl.put impl.tail

inductive Overload where
  | plain
  | toAbort (toAbort : Bool)
  | level (level : LogLevel)
  | func (level : LogLevel) (func : Bytes)

def create (around : Surroundings) (file : SourceFile) (line : Int32) :
    Overload → Except Fault Impl
  | .plain => Impl.create around .INFO 0 file line
  | .toAbort toAbort =>
    Impl.create around (if toAbort then .FATAL else .ERROR) around.errno file line
  | .level level => Impl.create around level 0 file line
  | .func level func => (Impl.create around level 0 file line).bind (fun impl =>
      impl.put [.cString (some func), .cString (some (bytes " "))])

/-- What `g_output` gets, and whether the process is aborted behind it. -/
structure Output where
  record : List (Option Byte)
  aborts : Bool

def destroy (impl : Impl) : Except Fault Output :=
  impl.finish.bind (fun impl =>
    if impl.stream_.length ≤ kSmallBuffer then
      .ok { record := impl.stream_.text, aborts := impl.level_ = .FATAL }
    else .error .outOfRange)

def streamed (around : Surroundings) (filename : Bytes) (line : Int32) (overload : Overload)
    (vs : List Value) : Except Fault Impl :=
  (create around (.create filename) line overload).bind (fun impl => impl.put vs)

def log (around : Surroundings) (filename : Bytes) (line : Int32) (overload : Overload)
    (vs : List Value) : Except Fault Output :=
  (streamed around filename line overload vs).bind destroy

def Terminated (r : Except Fault Output) : Prop :=
  ∃ output, r = .ok output ∧ output.record.getLast? = some (some LF)

def Roomy (impl : Impl) : Prop :=
  let name := impl.basename_.data_
  let free := kSmallBuffer-impl.stream_.length
  impl.stream_.length ≤ kSmallBuffer
    ∧ (name.length+2 < free
      ∨ (free ≤ name.length ∧ 2 < free)
      ∨ (free = name.length+1
        ∧ (impl.stream_.text ++ name.map some).getLast? = some (some LF))
      ∨ (free ≤ name.length ∧ free ≤ 1 ∧ impl.stream_.text.getLast? = some (some LF)))

theorem part_text (SIZE length : ℕ) (v : Value) (h : LogStream.kind v = .text) :
    LogStream.part SIZE length v =
      if length+(LogStream.render v).length < SIZE then LogStream.render v else [] := by
  unfold LogStream.part LogStream.room
  rw [h]
  simp

theorem part_int (SIZE length : ℕ) (v : Int32) :
    LogStream.part SIZE length (.int v) =
      if length+48 ≤ SIZE then integerText v.toInt else [] := by
  unfold LogStream.part LogStream.room
  simp [LogStream.kind, LogStream.render]

theorem part_append (SIZE length : ℕ) (logline : Bytes) :
    LogStream.part SIZE length (.append logline) =
      if length+logline.length < SIZE then logline else [] :=
  part_text SIZE length _ rfl

theorem part_dash (SIZE length : ℕ) : LogStream.part SIZE length (.cString (some (bytes "-"))) =
    if length+1 < SIZE then bytes "-" else [] :=
  part_text SIZE length _ rfl

theorem part_newline (SIZE length : ℕ) :
    LogStream.part SIZE length (.cString (some (bytes "\n"))) =
      if length+1 < SIZE then [LF] else [] :=
  part_text SIZE length _ rfl

def ending (line : Int32) : List Value :=
  [.cString (some (bytes "-")), .int line, .cString (some (bytes "\n"))]

theorem shown_line (SIZE length : ℕ) (line : Int32) (h : length+1 < SIZE) : ∃ t,
    LogStream.shown SIZE length [.int line, .cString (some (bytes "\n"))] = t ++ [LF] := by
  have hlow := line.le_toInt
  have hhigh := line.toInt_lt
  have htext := integerText_length line.toInt (by omega) (by omega)
  refine ⟨LogStream.part SIZE length (.int line), ?_⟩
  rw [LogStream.shown, LogStream.shown, LogStream.shown, part_newline, if_pos, List.append_nil]
  rw [part_int]
  split
  · omega
  · exact h

/-- What the dash, the line and the newline leave behind `length` bytes. -/
theorem shown_ending (SIZE length : ℕ) (line : Int32) :
    (length+2 < SIZE → ∃ t, LogStream.shown SIZE length (ending line) = t ++ [LF])
    ∧ (length+2 = SIZE → LogStream.shown SIZE length (ending line) = bytes "-")
    ∧ (SIZE ≤ length+1 → LogStream.shown SIZE length (ending line) = []) := by
  unfold ending
  rw [LogStream.shown, part_dash]
  refine ⟨fun h => ?_, fun h => ?_, fun h => ?_⟩
  · obtain ⟨t, ht⟩ := shown_line SIZE (length+1) line (by omega)
    rw [if_pos (by omega), show (bytes "-").length = 1 from rfl, ht]
    exact ⟨bytes "-" ++ t, (List.append_assoc _ _ _).symm⟩
  · rw [if_pos (by omega), show (bytes "-").length = 1 from rfl, LogStream.shown, part_int,
      if_neg (by omega), LogStream.shown, part_newline, if_neg (by simp; omega)]
    simp [LogStream.shown]
  · rw [if_neg (by omega), LogStream.shown, part_int, if_neg (by simp; omega), LogStream.shown,
      part_newline, if_neg (by simp; omega)]
    simp [LogStream.shown]

theorem destroy_put (impl : Impl) (b : FixedBuffer kSmallBuffer)
    (h : LogStream.putAll impl.stream_ impl.tail = .ok b) : destroy impl =
      if b.cur_ ≤ kSmallBuffer then .ok { record := b.text, aborts := impl.level_ = .FATAL }
      else .error .outOfRange := by
  unfold destroy Impl.finish Impl.put
  rw [h]
  rfl

theorem destroy_inside (impl : Impl) (h : Terminated (destroy impl)) : impl.stream_.Inside := by
  obtain ⟨output, houtput, -⟩ := h
  cases hput : LogStream.putAll impl.stream_ impl.tail with
  | error e =>
    unfold destroy Impl.finish Impl.put at houtput
    rw [hput] at houtput
    cases houtput
  | ok b =>
    rw [destroy_put impl b hput] at houtput
    split at houtput
    · exact (LogStream.putAll_cur _ _ b hput).trans ‹_›
    · cases houtput

theorem destroy_text (impl : Impl) (h : impl.stream_.Inside) : destroy impl = .ok {
    record := impl.stream_.text
      ++ (LogStream.shown kSmallBuffer impl.stream_.cur_ impl.tail).map some
    aborts := impl.level_ = .FATAL } := by
  have hkinds : ∀ v ∈ impl.tail, LogStream.kind v ≠ .bool := by
    intro v hv
    simp only [Impl.tail, List.mem_cons, List.not_mem_nil, or_false] at hv
    rcases hv with rfl | rfl | rfl | rfl <;> simp [LogStream.kind]
  obtain ⟨b, hput, hinside, htext⟩ :=
    LogStream.putAll_spec impl.stream_ impl.tail (by decide) h hkinds
  rw [destroy_put impl b hput, if_pos (show b.cur_ ≤ kSmallBuffer from hinside), htext]

theorem shown_tail (impl : Impl) (SIZE length : ℕ) :
    LogStream.shown SIZE length impl.tail =
      if length+impl.basename_.data_.length < SIZE then impl.basename_.data_
        ++ LogStream.shown SIZE (length+impl.basename_.data_.length) (ending impl.line_)
      else LogStream.shown SIZE length (ending impl.line_) := by
  have htail : impl.tail = .append impl.basename_.data_::ending impl.line_ := rfl
  rw [htail, LogStream.shown, part_append]
  by_cases hname : length+impl.basename_.data_.length < SIZE
  · rw [if_pos hname, if_pos hname]
  · rw [if_neg hname, if_neg hname, List.nil_append, List.length_nil, Nat.add_zero]

theorem getLast_newline (front : List (Option Byte)) (t : Bytes) :
    (front ++ (t ++ [LF]).map some).getLast? = some (some LF) := by
  rw [List.map_append, ← List.append_assoc]
  exact List.getLast?_concat

theorem getLast_dash (front : List (Option Byte)) (t : Bytes) :
    (front ++ (t ++ bytes "-").map some).getLast? ≠ some (some LF) := by
  rw [List.map_append, ← List.append_assoc]
  rw [show (bytes "-").map some = [some (byte '-')] from rfl, List.getLast?_concat]
  decide

theorem destroy_terminated (impl : Impl) : Terminated (destroy impl) ↔ Roomy impl := by
  by_cases hinside : impl.stream_.Inside
  · have hlength : impl.stream_.cur_ ≤ kSmallBuffer := hinside
    rw [destroy_text impl hinside, shown_tail]
    simp only [Terminated, Except.ok.injEq, exists_eq_left', Roomy, FixedBuffer.length]
    generalize impl.basename_.data_ = name
    generalize hn : impl.stream_.cur_ = n at hlength ⊢
    generalize impl.stream_.text = front
    by_cases hname : n+name.length < kSmallBuffer
    · rw [if_pos hname]
      obtain ⟨hroomy, hfull, hnone⟩ :=
        shown_ending kSmallBuffer (n+name.length) impl.line_
      rcases lt_trichotomy (n+name.length+2) kSmallBuffer with hlt | heq | hgt
      · obtain ⟨t, ht⟩ := hroomy hlt
        rw [ht, ← List.append_assoc]
        exact iff_of_true (getLast_newline front _) ⟨hlength, Or.inl (by omega)⟩
      · rw [hfull heq]
        apply iff_of_false (getLast_dash front name)
        omega
      · rw [hnone (by omega), List.append_nil]
        constructor
        · intro hlast
          exact ⟨hlength, Or.inr (Or.inr (Or.inl ⟨by omega, hlast⟩))⟩
        · rintro ⟨-, h | h | h | h⟩
          · omega
          · omega
          · exact h.2
          · omega
    · rw [if_neg hname]
      obtain ⟨hroomy, hfull, hnone⟩ := shown_ending kSmallBuffer n impl.line_
      rcases lt_trichotomy (n+2) kSmallBuffer with hlt | heq | hgt
      · obtain ⟨t, ht⟩ := hroomy hlt
        rw [ht]
        exact iff_of_true (getLast_newline front t) ⟨hlength, Or.inr (Or.inl (by omega))⟩
      · rw [hfull heq]
        apply iff_of_false (getLast_dash front [])
        omega
      · rw [hnone (by omega), List.map_nil, List.append_nil]
        constructor
        · intro hlast
          exact ⟨hlength, Or.inr (Or.inr (Or.inr ⟨by omega, by omega, hlast⟩))⟩
        · rintro ⟨-, h | h | h | h⟩
          · omega
          · omega
          · omega
          · exact h.2.2
  · constructor
    · intro h
      exact absurd (destroy_inside impl h) hinside
    · rintro ⟨hlength, -⟩
      exact absurd hlength hinside

def front (around : Surroundings) : Overload → List Value
  | .plain => Impl.header around .INFO 0
  | .toAbort toAbort => Impl.header around (if toAbort then .FATAL else .ERROR) around.errno
  | .level level => Impl.header around level 0
  | .func level func =>
    Impl.header around level 0 ++ [.cString (some func), .cString (some (bytes " "))]

theorem header_kind (around : Surroundings) (level : LogLevel) (saved_errno : Int32) (v : Value)
    (hv : v ∈ Impl.header around level saved_errno) : LogStream.kind v = .text := by
  simp only [Impl.header, formatTime, List.mem_append, List.mem_cons, List.not_mem_nil,
    or_false] at hv
  split at hv
  · rcases hv with ((rfl | rfl) | rfl | rfl | rfl) | hv <;> try rfl
    simp only [List.mem_cons, List.not_mem_nil, or_false] at hv
    rcases hv with rfl | rfl <;> rfl
  · rcases hv with ((rfl | rfl) | rfl | rfl | rfl) | hv <;> try rfl
    simp at hv

theorem front_kind (around : Surroundings) (overload : Overload) (v : Value)
    (hv : v ∈ front around overload) : LogStream.kind v = .text := by
  cases overload with
  | func level func =>
    rcases List.mem_append.mp hv with hv | hv
    · exact header_kind around level 0 v hv
    · simp only [List.mem_cons, List.not_mem_nil, or_false] at hv
      rcases hv with rfl | rfl <;> rfl
  | _ => exact header_kind around _ _ v hv

def Overload.logLevel : Overload → LogLevel
  | .plain => .INFO
  | .toAbort b => if b then .FATAL else .ERROR
  | .level l => l
  | .func l _ => l

theorem create_front (around : Surroundings) (file : SourceFile) (line : Int32)
    (overload : Overload) : create around file line overload =
      (LogStream.putAll .create (front around overload)).map (fun stream_ =>
        { basename_ := file, line_ := line, level_ := overload.logLevel, stream_ := stream_ }) := by
  cases overload with
  | func level func =>
    simp only [create, Impl.create, front, LogStream.putAll_append]
    generalize @LogStream.putAll kSmallBuffer .create (Impl.header around level 0) = r
    cases r with
    | error e => rfl
    | ok b => rfl
  | plain => simp only [create, Impl.create, front, Overload.logLevel]
  | toAbort b => simp only [create, Impl.create, front, Overload.logLevel]
  | level level => simp only [create, Impl.create, front, Overload.logLevel]

/-- Without a `bool` among the values, the buffer reads as it should. -/
theorem streamed_spec (around : Surroundings) (filename : Bytes) (line : Int32)
    (overload : Overload) (vs : List Value) (hvs : ∀ v ∈ vs, LogStream.kind v ≠ .bool) :
    ∃ b, streamed around filename line overload vs = .ok {
        basename_ := .create filename, line_ := line, level_ := overload.logLevel, stream_ := b }
      ∧ b.Inside
      ∧ b.text = (LogStream.expected kSmallBuffer (front around overload ++ vs)).map some := by
  have hkinds : ∀ v ∈ front around overload ++ vs, LogStream.kind v ≠ .bool := by
    intro v hv
    rcases List.mem_append.mp hv with hv | hv
    · simp [front_kind around overload v hv]
    · exact hvs v hv
  have hcreate := create_front around (.create filename) line overload
  obtain ⟨b, hput, hinside, htext⟩ := LogStream.putAll_create kSmallBuffer _ (by decide) hkinds
  rw [LogStream.putAll_append] at hput
  unfold streamed Impl.put
  rw [hcreate]
  cases hfront : LogStream.putAll .create (front around overload) with
  | error e => simp [hfront, Except.bind] at hput
  | ok b₀ =>
    rw [hfront] at hput
    simp only [Except.bind] at hput
    simp only [Except.map, Except.bind, hput]
    exact ⟨b, rfl, hinside, htext⟩

/-- A record ends with a newline just when there is room for one, or one stands at its
end anyway. -/
theorem log_terminated (around : Surroundings) (filename : Bytes) (line : Int32)
    (overload : Overload) (vs : List Value) :
    Terminated (log around filename line overload vs) ↔
      ∃ impl, streamed around filename line overload vs = .ok impl ∧ Roomy impl := by
  unfold log
  cases streamed around filename line overload vs with
  | error e => simp [Terminated, Except.bind]
  | ok impl =>
    simp only [Except.bind, Except.ok.injEq, exists_eq_left']
    exact destroy_terminated impl

def plainSurroundings : Surroundings where
  now := { microsecondsSinceEpoch_ := 0 }
  localtime := fun _ => ⟨70, 0, 1, 0, 0, 0⟩
  tid := 1
  errno := 0
  strerror := fun _ => []

theorem front_plain : LogStream.expected kSmallBuffer (front plainSurroundings .plain) =
    bytes "1970/01/01 00:00:000000001 INFO  " := by
  decide

/-- With two bytes left behind the name, there is only the dash. -/
theorem log_unterminated : ¬ Terminated (log plainSurroundings (bytes "/src/HttpServer.cc") 38
    .plain [.string (List.replicate 3952 (byte 'a'))]) := by
  generalize hpath : List.replicate 3952 (byte 'a') = path
  have hlength : path.length = 3952 := by rw [← hpath, List.length_replicate]
  obtain ⟨b, hstreamed, hinside, htext⟩ := streamed_spec plainSurroundings
    (bytes "/src/HttpServer.cc") 38 .plain [.string path] (by simp [LogStream.kind])
  have hpart : LogStream.part kSmallBuffer 33 (.string path) = path := by
    rw [part_text _ _ _ rfl]
    simp [LogStream.render, hlength, kSmallBuffer]
  have hcur : b.length = 3985 := by
    show b.cur_ = 3985
    rw [← b.text_length hinside, htext, List.length_map, LogStream.expected_concat,
      front_plain, show (bytes "1970/01/01 00:00:000000001 INFO  ").length = 33 from rfl, hpart,
      List.length_append, hlength]
    rfl
  have hbase : (SourceFile.create (bytes "/src/HttpServer.cc")).data_.length = 13 := by
    decide
  unfold log
  rw [hstreamed]
  simp only [Except.bind]
  rw [destroy_terminated]
  simp only [Roomy, hcur, hbase]
  simp only [kSmallBuffer]
  omega

end Logger

end MuServer
