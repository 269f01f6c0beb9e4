import MiniOb.Server.Connection

/-! # Messages of a connection

A command is one event however it comes in, and what gets out of a response in the three calls of `write`. -/

namespace MiniOb.ConnectionContext
open List
variable {results rest : List ReadResult} {received body data command : Bytes}

def pieceBytes : ReadResult → Bytes
  | .bytes data => data
  | _ => []

/-- The command comes in pieces, with `EAGAIN` between them any number of times. -/
structure Splits (results : List ReadResult) (command : Bytes) : Prop where
  pieces : ∀ r ∈ results, r = .again ∨ ∃ data ≠ [], r = .bytes data
  bytes : results.flatMap pieceBytes = command

def padded (received : Bytes) : Bytes := received ++ replicate (socketBufferSize - received.length) 0

def goesOn (results : List ReadResult) (received : Bytes) : Option (Bytes × Nat × Int) :=
  recvLoop results (padded received) received.length

theorem goesOn_full (h : received.length = socketBufferSize) :
    goesOn results received = some (padded received, socketBufferSize, 0) := by
  rw [goesOn, recvLoop.eq_def, h, if_pos (Nat.sub_self _)]

theorem goesOn_again (h : received.length < socketBufferSize) :
    goesOn (.again :: results) received = goesOn results received := by
  rw [goesOn, recvLoop, if_neg (by omega), goesOn]

theorem goesOn_bytes (hroom : received.length < socketBufferSize) (hdata : data ≠ []) {piece : Bytes}
    (hpiece : data.take (socketBufferSize - received.length) = piece) :
    goesOn (.bytes data :: results) received = (piece.findIdx? (· == 0)).elim (goesOn results (received ++ piece))
      fun i => some (padded (received ++ piece), received.length + (i + 1), piece.length) := by
  have hpos : piece.length ≠ 0 := by
    simp [← hpiece, hdata]
    omega
  have hle : ¬ piece.length + received.length > socketBufferSize := by
    simp [← hpiece]
    omega
  have hbuf : (padded received).take received.length ++ piece ++ (padded received).drop
    (received.length + piece.length) =
      padded (received ++ piece) := by
    simp [padded, drop_append, Nat.sub_sub]
  have hsearch : ((padded (received ++ piece)).drop received.length).take piece.length = piece := by simp [padded]
  rw [goesOn, recvLoop, if_neg (by omega)]
  simp only [hpiece, hbuf, if_neg hpos, if_neg hle, hsearch]
  cases piece.findIdx? (· == 0) with
  | none => rw [goesOn, length_append, Option.elim]
  | some i => rfl

theorem findIdx?_unended (h : 0 ∉ data) : data.findIdx? (· == 0) = none := by
  rw [findIdx?_eq_none_iff]
  intro x hx
  exact beq_false_of_ne fun hzero => h (hzero ▸ hx)

theorem goesOn_unended (hfit : received.length ≤ socketBufferSize) (hsplit : Splits results command)
    (hend : 0 ∉ command.take (socketBufferSize - received.length)) :
    goesOn (results ++ rest) received =
      goesOn rest (received ++ command.take (socketBufferSize - received.length)) := by
  obtain ⟨hpieces, rfl⟩ := hsplit
  induction results generalizing received with
  | nil => simp
  | cons r results ih =>
    rcases Nat.eq_or_lt_of_le hfit with hfull | hroom
    · rw [goesOn_full hfull, goesOn_full (by simp [hfull])]
      simp [hfull]
    obtain ⟨hr, hlater⟩ := forall_mem_cons.mp hpieces
    rcases hr with rfl | ⟨data, hdata, rfl⟩
    · rw [cons_append, goesOn_again hroom]
      exact ih hfit hlater hend
    · rw [cons_append, goesOn_bytes hroom hdata rfl]
      have hleft : socketBufferSize - received.length - data.length =
          socketBufferSize - (received ++ data.take (socketBufferSize - received.length)).length := by
        simp
        omega
      rw [flatMap_cons, pieceBytes, take_append, hleft] at hend ⊢
      rw [mem_append, not_or] at hend
      rw [findIdx?_unended hend.1, Option.elim, ih (by simp; omega) hlater hend.2, append_assoc]

theorem goesOn_ended (hsplit : Splits results (body ++ [0])) (hbody : 0 ∉ body)
    (hfit : received.length + body.length < socketBufferSize) :
    ∃ readLen : Int, 0 < readLen ∧ goesOn (results ++ rest) received =
      some (padded (received ++ (body ++ [0])), received.length + (body.length + 1), readLen) := by
  obtain ⟨hpieces, hbytes⟩ := hsplit
  induction results generalizing received body with
  | nil => simp at hbytes
  | cons r results ih =>
    obtain ⟨hr, hlater⟩ := forall_mem_cons.mp hpieces
    rcases hr with rfl | ⟨data, hdata, rfl⟩
    · rw [cons_append, goesOn_again (by omega)]
      exact ih hbody hfit hlater hbytes
    · rw [flatMap_cons, pieceBytes] at hbytes
      have hlen := congrArg length hbytes
      simp only [length_append, length_singleton] at hlen
      rw [cons_append, goesOn_bytes (by omega) hdata (take_of_length_le (by omega))]
      rcases eq_nil_or_concat' (results.flatMap pieceBytes) with hnil | ⟨front, last, hconcat⟩
      · -- The zero is the last byte of this piece.
        rw [hnil, append_nil] at hbytes
        subst hbytes
        have hidx : (body ++ [0]).findIdx? (· == 0) = some body.length := by
          simp [findIdx?_append, findIdx?_unended hbody]
        exact ⟨(body ++ [0]).length, by simp, by rw [hidx, Option.elim]⟩
      · rw [hconcat, ← append_assoc] at hbytes
        obtain ⟨rfl, hzero⟩ := append_inj' hbytes rfl
        obtain rfl := singleton_inj.mp hzero
        rw [mem_append, not_or] at hbody
        rw [length_append] at hfit
        rw [findIdx?_unended hbody.1, Option.elim]
        simpa [Nat.add_assoc] using @ih (received ++ data) front hbody.2 (by rw [length_append]; omega) hlater hconcat

/-- A command that ends in its only zero byte is one event, with nothing but the command in the buffer, in whatever
    pieces it comes in. One that fills the buffer without a zero byte, or comes to its end without one, closes the
    connection. -/
theorem recv_frames (results rest : List ReadResult) (command : Bytes) (c : ConnectionContext)
    (hsplit : Splits results command) : (∀ body, command = body ++ [0] → 0 ∉ body → command.length ≤ socketBufferSize →
      recv (results ++ rest) c = some { c with buf := padded command, events := c.events ++ [padded command] }) ∧
    (0 ∉ command.take socketBufferSize →
      socketBufferSize ≤ command.length ∨ rest.head? = some .failed ∨ rest.head? = some (.bytes []) →
      recv (results ++ rest) c = some { c with buf := padded (command.take socketBufferSize), closed := true }) := by
  have hstart : recvLoop (results ++ rest) (replicate socketBufferSize 0) 0 = goesOn (results ++ rest) [] := rfl
  constructor
  · rintro body rfl hbody hfit
    rw [length_append, length_singleton] at hfit
    obtain ⟨readLen, hpos, hloop⟩ := @goesOn_ended results rest [] body hsplit hbody (by rw [length_nil]; omega)
    have hshort : ¬ body.length + 1 > socketBufferSize := by omega
    simp [recv, hstart, hloop, hshort, hpos.ne', hpos.not_gt]
  · intro hend hlast
    have hloop : goesOn (results ++ rest) [] = goesOn rest (command.take socketBufferSize) :=
      goesOn_unended (Nat.zero_le _) hsplit hend
    by_cases hfull : socketBufferSize ≤ command.length
    · rw [goesOn_full (length_take_of_le hfull)] at hloop
      simp [recv, hstart, hloop]
    · have hroom : ¬ socketBufferSize - command.length = 0 := by omega
      rw [take_of_length_le (by omega)] at hloop ⊢
      obtain hstop | hstop := hlast.resolve_left hfull <;>
      · obtain ⟨rest, rfl⟩ := head?_eq_some_iff.mp hstop
        rw [recv, hstart, hloop, goesOn, recvLoop, if_neg hroom]
        simp

theorem recv_frames_twoPieces : let c : ConnectionContext := ⟨[], [], [], false⟩
    recv [.bytes [65], .again, .bytes [0]] c = some { c with buf := padded [65, 0], events := [padded [65, 0]] } ∧
      recv [.bytes [65], .failed] c = some { c with buf := padded [65], closed := true } :=
  ⟨(recv_frames [.bytes [65], .again, .bytes [0]] [] [65, 0] _ ⟨by simp, rfl⟩).1 [65] rfl (by decide) (by decide),
    (recv_frames [.bytes [65]] [.failed] [65] _ ⟨by simp, rfl⟩).2 (by decide) (.inr (.inl rfl))⟩

/-- The bytes that calls of `write` take, up to the first one that fails. -/
def taken (writes : List (Option Nat)) : Nat := ((writes.takeWhile Option.isSome).filterMap id).sum

def sent (writes : Fin 3 → Option Nat) : Nat := taken (ofFn writes)

theorem sendLoop_spec (data : Bytes) (writes : List (Option Nat)) (wlen : Nat) (c : ConnectionContext) :
    ((sendLoop data writes wlen c).1 = 0 ↔ data.length ≤ wlen + taken writes ∨ ∀ w ∈ writes, w.isSome) ∧
      (sendLoop data writes wlen c).2.written = c.written ++ (data.drop wlen).take (taken writes) := by
  induction writes generalizing wlen c with
  | nil => simp [sendLoop, taken]
  | cons write writes ih =>
    by_cases hlt : wlen < data.length
    · cases write with
      | none => simp [sendLoop, taken, hlt]
      | some len =>
        have htaken : taken (some len :: writes) = len + taken writes := by simp [taken]
        have hreached : data.length ≤ wlen + ((data.drop wlen).take len).length + taken writes ↔
            data.length ≤ wlen + (len + taken writes) := by
          rw [length_take, length_drop]
          omega
        simp only [sendLoop, if_pos hlt, ih, htaken, hreached, forall_mem_cons, Option.isSome_some, true_and]
        rw [append_assoc, take_add, ← drop_drop]
        rcases Nat.le_total len (data.drop wlen).length with hle | hle
        · rw [length_take_of_le hle]
        · rw [take_of_length_le hle, drop_length, drop_eq_nil_of_le hle]
    · have hnil : data.drop wlen = [] := drop_eq_nil_of_le (by omega)
      simp [sendLoop, hlt, hnil, show data.length ≤ wlen + taken (write :: writes) by omega]

theorem send_spec (writes : Fin 3 → Option Nat) (data : Bytes) (c : ConnectionContext) :
    ((send writes data c).1 = 0 ↔ data.length ≤ sent writes ∨ ∀ i, (writes i).isSome) ∧
      (send writes data c).2.written = c.written ++ data.take (sent writes) := by
  by_cases hdata : data.length = 0
  · obtain rfl := length_eq_zero_iff.mp hdata
    simp [send]
  · obtain ⟨hrc, hwritten⟩ := sendLoop_spec data (ofFn writes) 0 c
    rw [Nat.zero_add, forall_mem_ofFn_iff] at hrc
    rw [send, if_neg hdata]
    exact ⟨hrc, hwritten⟩

/-- `send` returns 0 for the whole only if the writes take all of it or one fails; and `callback_event` ends the
    response only where it is complete, exactly if it has an end of its own, gets out as a whole, or nothing fails and
    the end does not get out. -/
theorem delivered_iff (writes first second : Fin 3 → Option Nat) (data response : Bytes) (c : ConnectionContext) :
    (((send writes data c).1 = 0 → (send writes data c).2.written = c.written ++ data) ↔
      data.length ≤ sent writes ∨ ∃ i, writes i = none) ∧
    ((∃ c', callbackEvent first second response c = some c' ∧
        (c'.written = (send first (responseOf response) c).2.written ∨
          c'.written = c.written ++ responseOf response ++ [0])) ↔
      (responseOf response).getLast? = some 0 ∨ (responseOf response).length ≤ sent first ∨
        (∀ i, (first i).isSome) ∧ sent second = 0) := by
  constructor
  · obtain ⟨hrc, hwritten⟩ := send_spec writes data c
    have hnone : (∃ i, writes i = none) ↔ ¬ ∀ i, (writes i).isSome := by simp
    rw [hrc, hwritten, append_right_inj, take_eq_self_iff, hnone]
    tauto
  · by_cases hlast : (responseOf response).getLast? = some 0
    · simp [callbackEvent, hlast]
    obtain ⟨hrc, hwritten⟩ := send_spec first (responseOf response) c
    obtain ⟨-, hend⟩ := send_spec second [0] (send first (responseOf response) c).2
    have hcall : callbackEvent first second response c = if (send first (responseOf response) c).1 = 0 then
        some (send second [0] (send first (responseOf response) c).2).2 else none := by
      simp [callbackEvent, hlast]
    rw [hcall]
    simp only [Option.ite_none_right_eq_some, Option.some.injEq, and_assoc, exists_and_left, exists_eq_left', hend,
      hwritten, hrc, hlast, false_or, append_assoc]
    cases hsecond : sent second with
    | zero => simp
    | succ n =>
      simp
      tauto

/-- Of four bytes three get out, and the end behind them. If the first write fails, the connection is used after it has
    been deleted. -/
theorem response_cut : let c : ConnectionContext := ⟨[], [], [], false⟩
    send (fun _ => some 1) [65, 66, 67, 68] c = (0, { c with written := [65, 66, 67] }) ∧
      callbackEvent (fun _ => some 1) (fun _ => some 1) [65, 66, 67, 68] c =
        some { c with written := [65, 66, 67, 0] } ∧
      callbackEvent (fun _ => none) (fun _ => none) [65] c = none := by decide

theorem sendLoop_open (data : Bytes) (writes : List (Option Nat)) (wlen : Nat) (c : ConnectionContext)
    (h : (sendLoop data writes wlen c).1 = 0) : ∃ written, (sendLoop data writes wlen c).2 = { c with written } := by
  induction writes generalizing wlen c with
  | nil => exact ⟨_, rfl⟩
  | cons write writes ih =>
    unfold sendLoop at h ⊢
    split_ifs at h ⊢
    · cases write with
      | none => cases h
      | some len => exact ih _ _ h
    · exact ⟨_, rfl⟩

theorem send_whole {writes : Fin 3 → Option Nat} {data : Bytes} (c : ConnectionContext)
    (h : data.length ≤ sent writes) : send writes data c = (0, { c with written := c.written ++ data }) := by
  obtain ⟨hrc, hwritten⟩ := send_spec writes data c
  have hzero := hrc.mpr (.inl h)
  have hopen : ∃ written, (send writes data c).2 = { c with written } := by
    unfold send at hzero ⊢
    split_ifs at hzero ⊢
    · exact ⟨_, rfl⟩
    · exact sendLoop_open _ _ _ _ hzero
  obtain ⟨written, hopen⟩ := hopen
  rw [hopen, take_of_length_le h] at hwritten
  exact Prod.ext hzero (hwritten ▸ hopen)

/-- A command and the response to it. The calls of `write` take the response, and the end in case it has none of its
    own. -/
structure Exchange where
  results : List ReadResult
  body : Bytes
  splits : Splits results (body ++ [0])
  unended : 0 ∉ body
  fits : body.length < socketBufferSize
  response : Bytes
  first : Fin 3 → Option Nat
  second : Fin 3 → Option Nat
  taken : (responseOf response).length ≤ sent first
  ended : 1 ≤ sent second

namespace Exchange

def run (c : ConnectionContext) (e : Exchange) : Option ConnectionContext := do
  callbackEvent e.first e.second e.response (← recv e.results c)

def message (e : Exchange) : Bytes :=
  responseOf e.response ++ if (responseOf e.response).getLast? = some 0 then [] else [0]

def read (e : Exchange) (c : ConnectionContext) : ConnectionContext :=
  { c with buf := padded (e.body ++ [0]), events := c.events ++ [padded (e.body ++ [0])] }

theorem run_eq (e : Exchange) (c : ConnectionContext) :
    run c e = some { e.read c with written := c.written ++ e.message } := by
  obtain ⟨readLen, hpos, hloop⟩ := @goesOn_ended e.results [] [] e.body e.splits e.unended (by simpa using e.fits)
  have hstart : recvLoop e.results (replicate socketBufferSize 0) 0 = goesOn e.results [] := rfl
  have hshort : ¬ e.body.length + 1 > socketBufferSize := Nat.not_lt.mpr e.fits
  have hrecv : recv e.results c = some (e.read c) := by
    rw [append_nil] at hloop
    simp [recv, hstart, hloop, hshort, hpos.ne', hpos.not_gt, read]
  rw [run, hrecv]
  simp only [Option.bind_eq_bind, Option.bind_some, callbackEvent, send_whole _ e.taken, message]
  by_cases hlast : (responseOf e.response).getLast? = some 0
  · simp [hlast, read]
  · simp [hlast, @send_whole e.second [0] _ e.ended, read]

end Exchange

/-- In any number of exchanges the session stage gets the commands and the client the responses, each with an end, all
    of them in order and once. -/
theorem exchanges_in_order (es : List Exchange) (c : ConnectionContext) :
    ∃ buf, es.foldlM Exchange.run c = some { c with
      buf, events := c.events ++ es.map fun e => padded (e.body ++ [0])
      written := c.written ++ es.flatMap Exchange.message } := by
  induction es generalizing c with
  | nil => exact ⟨c.buf, by simp⟩
  | cons e es ih =>
    rw [foldlM_cons, e.run_eq]
    obtain ⟨buf, hrun⟩ := ih { e.read c with written := c.written ++ e.message }
    exact ⟨buf, by simpa [Exchange.read] using hrun⟩

/-- A command in two pieces, with a response of two bytes that goes out byte by byte and gets its end. -/
def inPieces : Exchange :=
  ⟨[.bytes [65], .again, .bytes [0]], [65],
    ⟨by simp, rfl⟩, by decide, by decide, [66, 67], fun _ => some 1, fun _ => some 1, by decide, by decide⟩

/-- A command in one piece, with a response that ends itself. -/
def atOnce : Exchange :=
  ⟨[.again, .bytes [68, 69, 0]], [68, 69],
    ⟨by simp, rfl⟩, by decide, by decide, [70, 0], fun _ => some 2, fun _ => some 1, by decide, by decide⟩

theorem exchanges_in_order_two : ∃ buf, [inPieces, atOnce, inPieces].foldlM Exchange.run ⟨[], [], [], false⟩ =
    some ⟨buf, [66, 67, 0, 70, 0, 66, 67, 0], [padded [65, 0], padded [68, 69, 0], padded [65, 0]], false⟩ :=
  exchanges_in_order [inPieces, atOnce, inPieces] ⟨[], [], [], false⟩

end MiniOb.ConnectionContext
