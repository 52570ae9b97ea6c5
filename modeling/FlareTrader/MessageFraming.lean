import FlareTrader.Framing
import FlareTrader.SortedMap

/-! Messages over a connection. A message is sent as its length in eight bytes and its
text; what is read comes in chunks that know nothing of messages. -/

namespace FlareTrader

structure JsonLibrary where
  Json : Type
  dump : Json → List UInt8
  parse : List UInt8 → Option Json
  parse_dump : ∀ msg, parse (dump msg) = some msg

def size64 : ℕ := 2 ^ 64

namespace NetworkNode

structure Connection where
  connId : ℤ
  rcvBuf : List UInt8 := []
  deriving DecidableEq

abbrev Connections := SortedMap ℤ Connection (· < ·)

inductive Event (lib : JsonLibrary)
  | onRecvMsg (connId : ℤ) (msg : lib.Json)
  | onDisconnected (connId : ℤ)

inductive ReadResult
  | data (bytes : List UInt8)
  | error (code : ℤ)

variable (lib : JsonLibrary)

/-- The bytes that are handed to the connection. For an empty text nothing is sent. -/
def sendMsg (msg : lib.Json) : Option (List UInt8) :=
  let msgStr := lib.dump msg
  if msgStr.length = 0 then none
  else some (Framing.leBytes 8 msgStr.length ++ msgStr)

/-- The loop over the messages in the buffer from a position on, and the position it ends
at. There is no result if the end of a message lies before its start, or if a message
cannot be parsed. -/
def readLoop (buf : List UInt8) : ℕ → ℕ → Option (List lib.Json × ℕ)
  | 0, _ => none
  | fuel + 1, pos =>
    if (pos + 8) % size64 ≤ buf.length then
      let msgSize := Framing.leValue ((buf.drop pos).take 8)
      let stop := (pos + 8 + msgSize) % size64
      if stop ≤ buf.length then
        if stop < pos + 8 then none
        else
          (lib.parse ((buf.drop (pos + 8)).take msgSize)).bind fun msg =>
            (readLoop buf fuel stop).map fun r => (msg :: r.1, r.2)
      else some ([], pos)
    else some ([], pos)

def onUvRead (connId : ℤ) (read : ReadResult) (connections : Connections) :
    Option (List (Event lib) × Connections) :=
  match connections.find? connId with
  | none => some ([], connections)
  | some conn =>
    if conn.connId ≠ connId then some ([], connections)
    else match read with
      | .data [] => some ([], connections)
      | .data (b :: bs) =>
        let buf := conn.rcvBuf ++ b :: bs
        (readLoop lib buf (buf.length + 1) 0).map fun r =>
          let rcvBuf := if 0 < r.2 then buf.drop r.2 else buf
          (r.1.map (Event.onRecvMsg connId), connections.insert connId { conn with rcvBuf })
      | .error _ => some ([.onDisconnected connId], connections.erase connId)

def feed (connId : ℤ) : List (List UInt8) → Connections → Option (List (Event lib) × Connections)
  | [], connections => some ([], connections)
  | chunk :: chunks, connections =>
    (onUvRead lib connId (.data chunk) connections).bind fun r =>
      (feed connId chunks r.2).map fun r' => (r.1 ++ r'.1, r'.2)

def Sent (msgs : List lib.Json) (frames : List (List UInt8)) : Prop :=
  List.Forall₂ (fun msg frame => sendMsg lib msg = some frame) msgs frames

section Frames

variable {lib} {msg : lib.Json} {frame : List UInt8}

theorem frame_eq (h : sendMsg lib msg = some frame) :
    frame = Framing.leBytes 8 (lib.dump msg).length ++ lib.dump msg := by
  simp only [sendMsg] at h
  split_ifs at h
  exact (Option.some.inj h).symm

theorem length_frame (h : sendMsg lib msg = some frame) :
    frame.length = 8 + (lib.dump msg).length := by
  rw [frame_eq h, List.length_append, Framing.length_leBytes]

theorem leValue_frame (h : sendMsg lib msg = some frame) (hsize : frame.length < 2 ^ 63) :
    Framing.leValue (frame.take 8) = (lib.dump msg).length := by
  have hlength := length_frame h
  have htake : frame.take 8 = Framing.leBytes 8 (lib.dump msg).length := by
    rw [frame_eq h, List.take_left' (Framing.length_leBytes _ _)]
  rw [htake, Framing.leValue_leBytes, Nat.mod_eq_of_lt]
  norm_num
  omega

theorem parse_frame (h : sendMsg lib msg = some frame) : lib.parse (frame.drop 8) = some msg := by
  rw [frame_eq h, List.drop_left' (Framing.length_leBytes _ _), lib.parse_dump]

/-- Bytes in which no message is complete, and which do not claim a message beyond the
limit. -/
def Unfinished (limit : ℕ) (rest : List UInt8) : Prop :=
  8 ≤ rest.length → rest.length < 8 + Framing.leValue (rest.take 8) ∧
    8 + Framing.leValue (rest.take 8) ≤ limit

theorem unfinished_nil (limit : ℕ) : Unfinished limit [] := by
  intro h
  exact absurd h (by decide)

theorem unfinished_of_lt (h : sendMsg lib msg = some frame) (hsize : frame.length < 2 ^ 63)
    {rest : List UInt8} (hpre : rest <+: frame) (hlt : rest.length < frame.length) :
    Unfinished frame.length rest := by
  intro hlong
  have htake : rest.take 8 = frame.take 8 := by
    obtain ⟨more, rfl⟩ := hpre
    rw [List.take_append_of_le_length hlong]
  rw [htake, leValue_frame h hsize, ← length_frame h]
  exact ⟨hlt, le_rfl⟩

/-- From a frame border the loop takes the complete frames and stops at the rest. -/
theorem readLoop_frames {msgs : List lib.Json} {frames : List (List UInt8)}
    (hsent : Sent lib msgs frames) (done : List UInt8) {rest : List UInt8} {limit : ℕ}
    (hrest : Unfinished limit rest)
    (hsize : done.length + frames.flatten.length + limit < 2 ^ 63)
    (hfit : rest.length ≤ limit) {fuel : ℕ} (hfuel : frames.length < fuel) :
    readLoop lib (done ++ (frames.flatten ++ rest)) fuel done.length =
      some (msgs, done.length + frames.flatten.length) := by
  have hmod : ∀ n, n < 2 ^ 63 + 8 → n % size64 = n := by
    intro n hn
    apply Nat.mod_eq_of_lt
    unfold size64
    omega
  induction hsent generalizing done fuel with
  | nil =>
    obtain ⟨fuel, rfl⟩ := Nat.exists_eq_succ_of_ne_zero (Nat.ne_zero_of_lt hfuel)
    rw [List.flatten_nil, List.length_nil] at hsize
    simp only [readLoop, List.flatten_nil, List.nil_append, List.length_append, List.drop_left,
      List.length_nil, add_zero]
    rw [hmod _ (by omega)]
    split_ifs with hlong hstop
    · obtain ⟨hlt, hlimit⟩ := hrest (by omega)
      rw [hmod _ (by omega)] at hstop
      omega
    · obtain ⟨hlt, hlimit⟩ := hrest (by omega)
      rw [hmod _ (by omega)] at hstop
      omega
    · rfl
    · rfl
  | @cons msg frame msgs frames hframe hsent ih =>
    obtain ⟨fuel, rfl⟩ := Nat.exists_eq_succ_of_ne_zero (Nat.ne_zero_of_lt hfuel)
    have hlength := length_frame hframe
    rw [List.flatten_cons, List.length_append] at hsize
    have hbuf : done ++ ((frame :: frames).flatten ++ rest) =
        done ++ frame ++ (frames.flatten ++ rest) := by
      rw [List.flatten_cons, List.append_assoc, List.append_assoc]
    have hmsg : ((done ++ frame ++ (frames.flatten ++ rest)).drop done.length).take 8 =
        frame.take 8 := by
      rw [List.append_assoc, List.drop_left, List.take_append_of_le_length (by omega)]
    have htext : ((done ++ frame ++ (frames.flatten ++ rest)).drop (done.length + 8)).take
        (lib.dump msg).length = frame.drop 8 := by
      rw [List.append_assoc, ← List.drop_drop, List.drop_left,
        List.drop_append_of_le_length (by omega), List.take_left']
      rw [List.length_drop]
      omega
    have hrec := ih (done ++ frame) (by rw [List.length_append]; omega)
      (Nat.lt_of_succ_lt_succ hfuel)
    have hstop : done.length + 8 + (lib.dump msg).length = (done ++ frame).length := by
      rw [List.length_append]
      omega
    rw [hbuf]
    simp only [readLoop, hmsg, leValue_frame hframe (by omega), htext, parse_frame hframe,
      Option.bind_some]
    rw [hmod _ (by omega), hmod _ (by omega), hstop, hrec]
    have hlong : (done ++ frame).length ≤ (done ++ frame ++ (frames.flatten ++ rest)).length := by
      rw [@List.length_append _ (done ++ frame)]
      exact Nat.le_add_right _ _
    rw [if_pos (by omega), if_pos hlong, if_neg (by omega), Option.map_some, List.flatten_cons,
      List.length_append, List.length_append, Nat.add_assoc]

end Frames

section Feed

variable {lib} {msgs : List lib.Json} {frames : List (List UInt8)} {connId : ℤ}
  {connections : Connections}

theorem exists_msg (hsent : Sent lib msgs frames) {frame : List UInt8} (h : frame ∈ frames) :
    ∃ msg, sendMsg lib msg = some frame := by
  induction hsent with
  | nil => cases h
  | @cons msg _ _ _ hframe _ ih =>
    rcases List.mem_cons.mp h with rfl | hmem
    · exact ⟨msg, hframe⟩
    · exact ih hmem

theorem frames_ne_nil (hsent : Sent lib msgs frames) : ∀ frame ∈ frames, frame ≠ [] := by
  intro frame hframe hempty
  obtain ⟨msg, hmsg⟩ := exists_msg hsent hframe
  have hlength := length_frame hmsg
  rw [hempty, List.length_nil] at hlength
  omega

theorem length_take_drop_le (frames : List (List UInt8)) (k k' : ℕ) :
    ((frames.drop k).take k').flatten.length ≤ frames.flatten.length := by
  have hsplit : frames.flatten = (frames.take k).flatten ++ (((frames.drop k).take k').flatten ++
      ((frames.drop k).drop k').flatten) := by
    rw [← List.flatten_append, List.take_append_drop, ← List.flatten_append, List.take_append_drop]
  rw [hsplit, List.length_append, List.length_append]
  omega

theorem unfinished_of_cut (hsent : Sent lib msgs frames) (hsize : frames.flatten.length < 2 ^ 63)
    {bytes rest : List UInt8} {k : ℕ} (hcut : Framing.Cut frames bytes k rest) :
    ∃ limit, Unfinished limit rest ∧ rest.length ≤ limit ∧
      (frames.take k).flatten.length + limit < 2 ^ 63 := by
  have htake := length_take_drop_le frames 0
  rw [List.drop_zero] at htake
  rcases Nat.lt_or_ge k frames.length with hk | hk
  · have hnext : frames[k]? = some frames[k] := List.getElem?_eq_getElem hk
    obtain ⟨msg, hmsg⟩ := exists_msg hsent (List.getElem_mem hk)
    have hlt := hcut.unfinished _ hnext
    have hpre := hcut.prefix_next
    rw [hnext, Option.getD_some] at hpre
    have hmore := htake (k + 1)
    rw [List.take_succ_eq_append_getElem hk, List.flatten_append, List.length_append,
      List.flatten_singleton] at hmore
    refine ⟨frames[k].length, unfinished_of_lt hmsg (by omega) hpre hlt, hlt.le, ?_⟩
    omega
  · have hempty := hcut.prefix_next
    rw [List.getElem?_eq_none hk, Option.getD_none, List.prefix_nil] at hempty
    rw [hempty]
    have hmore := htake k
    exact ⟨0, unfinished_nil 0, le_rfl, by omega⟩

theorem onUvRead_chunk (hsent : Sent lib msgs frames) (hsize : frames.flatten.length < 2 ^ 63)
    {bytes rest chunk : List UInt8} {k : ℕ} (hcut : Framing.Cut frames bytes k rest)
    (hfed : bytes ++ chunk <+: frames.flatten) (hne : chunk ≠ [])
    (hconn : connections.find? connId = some ⟨connId, rest⟩) :
    ∃ k' rest', Framing.Cut frames (bytes ++ chunk) (k + k') rest' ∧
      onUvRead lib connId (.data chunk) connections =
        some (((msgs.drop k).take k').map (Event.onRecvMsg connId),
          connections.insert connId ⟨connId, rest'⟩) := by
  obtain ⟨k', rest', hcut'⟩ := Framing.exists_cut (frames.drop k) (hcut.prefix_rest hfed)
  refine ⟨k', rest', hcut.append hcut', ?_⟩
  have hdropped : (frames.drop k).flatten.length < 2 ^ 63 := by
    have hle := length_take_drop_le frames k (frames.drop k).length
    rw [List.take_length] at hle
    omega
  have hsent' := List.forall₂_drop k hsent
  obtain ⟨limit, hrest, hfit, hlimit⟩ := unfinished_of_cut hsent' hdropped hcut'
  have hbuf := hcut'.bytes_eq
  have hcount := Framing.length_le_flatten (frames_ne_nil (List.forall₂_take k' hsent'))
  have hfuel : ((frames.drop k).take k').length < (rest ++ chunk).length + 1 := by
    rw [hbuf, List.length_append]
    omega
  have hread := readLoop_frames (List.forall₂_take k' hsent') [] hrest
    (by rw [List.length_nil]; omega) hfit hfuel
  rw [List.nil_append, ← hbuf, List.length_nil, zero_add] at hread
  have hleft : (if 0 < ((frames.drop k).take k').flatten.length
      then (rest ++ chunk).drop ((frames.drop k).take k').flatten.length else rest ++ chunk) =
        rest' := by
    rw [hbuf, List.drop_left]
    split_ifs with hsome
    · rfl
    · rw [List.length_eq_zero_iff.mp (Nat.eq_zero_of_not_pos hsome), List.nil_append]
  cases chunk with
  | nil => exact absurd rfl hne
  | cons b bs =>
    simp only [onUvRead, hconn, ne_eq, not_true, if_false, hread, Option.map_some, hleft]

theorem feed_chunks (hsent : Sent lib msgs frames) (hsize : frames.flatten.length < 2 ^ 63)
    {chunks : List (List UInt8)} (hne : ∀ chunk ∈ chunks, chunk ≠ []) {bytes rest : List UInt8}
    {k : ℕ} (hcut : Framing.Cut frames bytes k rest)
    (hfed : bytes ++ chunks.flatten <+: frames.flatten)
    (hconn : connections.find? connId = some ⟨connId, rest⟩) :
    ∃ k' rest' connections', Framing.Cut frames (bytes ++ chunks.flatten) (k + k') rest' ∧
      feed lib connId chunks connections =
        some (((msgs.drop k).take k').map (Event.onRecvMsg connId), connections') ∧
      connections'.find? connId = some ⟨connId, rest'⟩ ∧
      ∀ other, other ≠ connId → connections'.find? other = connections.find? other := by
  induction chunks generalizing connections bytes rest k with
  | nil =>
    refine ⟨0, rest, connections, ?_, rfl, hconn, fun _ _ => rfl⟩
    rw [List.flatten_nil, List.append_nil]
    exact hcut
  | cons chunk chunks ih =>
    rw [List.flatten_cons, ← List.append_assoc] at hfed
    obtain ⟨k₁, rest₁, hcut₁, hread⟩ := onUvRead_chunk hsent hsize hcut
      ((List.prefix_append _ _).trans hfed) (hne chunk List.mem_cons_self) hconn
    obtain ⟨k₂, rest₂, connections', hcut₂, hfeed, hconn', hothers⟩ :=
      ih (fun c hc => hne c (List.mem_cons_of_mem _ hc)) hcut₁ hfed
        (SortedMap.find?_insert_self connections connId ⟨connId, rest₁⟩)
    refine ⟨k₁ + k₂, rest₂, connections', ?_, ?_, hconn', fun other hother => ?_⟩
    · rw [List.flatten_cons, ← List.append_assoc, ← Nat.add_assoc]
      exact hcut₂
    · simp only [feed, hread, Option.bind_some, hfeed, Option.map_some]
      rw [← List.map_append, ← List.drop_drop, List.take_add]
    · rw [hothers other hother, SortedMap.find?_insert_of_ne _ hother]

end Feed

/-- However the stream is cut, the messages that are complete are delivered, once and in
order, and the buffer holds the unfinished rest. -/
theorem framing_independent_of_segmentation (lib : JsonLibrary) (connId : ℤ)
    (connections : Connections) (hconn : connections.find? connId = some ⟨connId, []⟩)
    (msgs : List lib.Json) (frames : List (List UInt8)) (hsent : Sent lib msgs frames)
    (hsize : frames.flatten.length < 2 ^ 63) (chunks : List (List UInt8))
    (hne : ∀ chunk ∈ chunks, chunk ≠ []) (hfed : chunks.flatten <+: frames.flatten) :
    ∃ k rest connections', feed lib connId chunks connections =
        some ((msgs.take k).map (Event.onRecvMsg connId), connections') ∧
      (∀ j ≤ msgs.length, (frames.take j).flatten.length ≤ chunks.flatten.length ↔ j ≤ k) ∧
      k ≤ msgs.length ∧
      connections'.find? connId = some ⟨connId, rest⟩ ∧
      chunks.flatten = (frames.take k).flatten ++ rest ∧
      ∀ other, other ≠ connId → connections'.find? other = connections.find? other := by
  obtain ⟨k, rest, connections', hcut, hfeed, hconn', hothers⟩ := @feed_chunks lib msgs frames connId
    connections hsent hsize chunks hne [] [] 0 (Framing.cut_nil (frames_ne_nil hsent)) hfed hconn
  rw [List.nil_append, Nat.zero_add] at hcut
  rw [hsent.length_eq]
  exact ⟨k, rest, connections', hfeed, fun j hj => hcut.complete_iff hj, hcut.le_length, hconn',
    hcut.bytes_eq, hothers⟩

def boolLibrary : JsonLibrary where
  Json := Bool
  dump := fun b => if b then [116, 114, 117, 101] else [102, 97, 108, 115, 101]
  parse := fun text =>
    if text = [116, 114, 117, 101] then some true
    else if text = [102, 97, 108, 115, 101] then some false
    else none
  parse_dump := by decide

def trueFalseFrames : List (List UInt8) :=
  [[4, 0, 0, 0, 0, 0, 0, 0, 116, 114, 117, 101],
    [5, 0, 0, 0, 0, 0, 0, 0, 102, 97, 108, 115, 101]]

/-- The first border lies in a length, the second in a text. -/
def trueFalseChunks : List (List UInt8) :=
  [[4, 0, 0], [0, 0, 0, 0, 0, 116, 114], [117, 101, 5, 0, 0, 0, 0, 0, 0, 0, 102]]

theorem framing_true_false :
    ∃ k rest connections', feed boolLibrary 1 trueFalseChunks
        (SortedMap.empty.insert 1 ⟨1, []⟩) =
        some (([true, false].take k).map (Event.onRecvMsg 1), connections') ∧
      (∀ j ≤ [true, false].length, (trueFalseFrames.take j).flatten.length ≤
        trueFalseChunks.flatten.length ↔ j ≤ k) ∧
      k ≤ [true, false].length ∧
      connections'.find? 1 = some ⟨1, rest⟩ ∧
      trueFalseChunks.flatten = (trueFalseFrames.take k).flatten ++ rest ∧
      ∀ other, other ≠ 1 → connections'.find? other =
        SortedMap.find? (SortedMap.empty.insert 1 ⟨1, []⟩ : Connections) other :=
  framing_independent_of_segmentation boolLibrary 1 _ (by decide) [true, false] trueFalseFrames
    (.cons (by decide) (.cons (by decide) .nil)) (by decide) trueFalseChunks (by decide) (by decide)

example : (feed boolLibrary 1 trueFalseChunks (SortedMap.empty.insert 1 ⟨1, []⟩)).map
    (fun r => r.2.find? 1) = some (some ⟨1, [5, 0, 0, 0, 0, 0, 0, 0, 102]⟩) := by
  decide +kernel

end NetworkNode

end FlareTrader
