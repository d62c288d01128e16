/-
Witnesses among the voters.

The leader answers requests to join and removals side by side.
-/
import Mathlib.Data.List.Nodup
import Wegweiser.Zone.Data

namespace Wegweiser.Cluster

open List Bool

structure Server where
  id : Octets
  address : Octets
  voter : Bool
deriving DecidableEq

/-- `raft.Configuration`, as Raft accepts one. -/
structure Configuration where
  servers : List Server
  ids_nodup : (servers.map Server.id).Nodup
  some_voter : servers.any Server.voter = true

def witnessPrefix : Octets := ascii "witness-"

def isWitness (id : Octets) : Bool := witnessPrefix.isPrefixOf id

inductive Role where
  | voter
  | nonvoter
  | witness
deriving DecidableEq

structure JoinRequest where
  id : Octets
  address : Octets
  role : Role
  holdsLog : Bool
deriving DecidableEq

/-- Whether `net.SplitHostPort` takes an address apart: the port starts after the
last colon, and a host with colons of its own stands in brackets. -/
def splitsHostPort (address : Octets) : Bool :=
  match address.reverse.dropWhile (· != 58) with
  | [] => false
  | _ :: before =>
    let host := before.reverse
    let port := address.drop (host.length + 1)
    match host with
    | 91 :: inner =>
      inner.getLast? == some 93 && !(inner.dropLast.contains 93) && !(inner.contains 91) &&
        !(port.contains 91) && !(port.contains 93)
    | _ =>
      !(host.contains 58) && !(address.contains 91) && !(address.contains 93)

def JoinRequest.check (r : JoinRequest) : Bool :=
  !r.id.isEmpty && (isWitness r.id == (r.role == .witness)) && splitsHostPort r.address

/-- The voters among some servers whose identifier `q` picks. -/
def votersWho (q : Octets → Bool) (servers : List Server) : Nat :=
  servers.countP fun srv => srv.voter && q srv.id

def othersThan (id : Octets) (servers : List Server) : List Server :=
  servers.filter fun srv => srv.id != id

def Configuration.keepsWitnessesFew (c : Configuration) (id : Octets) (voting : Bool) : Bool :=
  let others := othersThan id c.servers
  let voters := votersWho (fun _ => true) others + if voting then 1 else 0
  let witnesses := votersWho isWitness others + if voting && isWitness id then 1 else 0
  !(decide (0 < witnesses) && decide (voters ≤ 2 * witnesses))

/-- A change of one server, as Raft is handed it. -/
inductive Change where
  | addVoter (id address : Octets)
  | addNonvoter (id address : Octets)
  | removeServer (id : Octets)
deriving DecidableEq

/-- One server put into a list: one that is there moves to the address, and keeps a
vote it has. -/
def put (vote : Bool) (id address : Octets) : List Server → List Server
  | [] => [⟨id, address, vote⟩]
  | srv :: rest =>
    if srv.id = id then ⟨id, address, srv.voter || vote⟩ :: rest
    else srv :: put vote id address rest

section Put

variable {vote : Bool} {id address : Octets} {servers : List Server} {srv : Server}

theorem mem_put_id {k : Octets} :
    k ∈ (put vote id address servers).map Server.id ↔ k = id ∨ k ∈ servers.map Server.id := by
  induction servers with
  | nil => simp [put]
  | cons head tail ih =>
    rw [put]
    by_cases hid : head.id = id
    · simp [hid]
    · simp only [hid, if_false, map_cons, mem_cons, ih]
      exact or_left_comm

theorem put_nodup (h : (servers.map Server.id).Nodup) :
    ((put vote id address servers).map Server.id).Nodup := by
  induction servers with
  | nil => simp [put]
  | cons head tail ih =>
    rw [map_cons, nodup_cons] at h
    rw [put]
    by_cases hid : head.id = id
    · simp only [hid, if_true, map_cons, nodup_cons]
      exact ⟨hid ▸ h.1, h.2⟩
    · rw [if_neg hid, map_cons, nodup_cons]
      refine ⟨fun hmem => ?_, ih h.2⟩
      rcases mem_put_id.mp hmem with heq | hmem
      · exact hid heq
      · exact h.1 hmem

theorem put_some_voter (h : servers.any Server.voter = true) :
    (put vote id address servers).any Server.voter = true := by
  induction servers with
  | nil => cases h
  | cons head tail ih =>
    rw [any_cons, or_eq_true] at h
    rw [put]
    by_cases hid : head.id = id
    · rcases h with h | h
      · simp [hid, h]
      · simp [hid, h]
    · rcases h with h | h
      · simp [hid, h]
      · simp [hid, ih h]

theorem votersWho_put_true (q : Octets → Bool) (id address : Octets)
    (h : (servers.map Server.id).Nodup) :
    votersWho q (put true id address servers) =
      votersWho q (othersThan id servers) + if q id then 1 else 0 := by
  induction servers with
  | nil => simp [put, votersWho, othersThan, countP_cons]
  | cons head tail ih =>
    rw [map_cons, nodup_cons] at h
    rw [put]
    by_cases hid : head.id = id
    · -- no other server has the identifier
      have hothers : othersThan id tail = tail := by
        refine filter_eq_self.mpr fun srv hsrv => bne_iff_ne.mpr fun heq => h.1 ?_
        exact mem_map.mpr ⟨srv, hsrv, heq.trans hid.symm⟩
      have hdrop : othersThan id (head :: tail) = tail := by
        rw [othersThan, filter_cons_of_neg (by simp [hid])]
        exact hothers
      rw [if_pos hid, hdrop]
      simp [votersWho, countP_cons]
    · have hkeep : othersThan id (head :: tail) = head :: othersThan id tail :=
        filter_cons_of_pos (by simp [hid])
      have hrest := ih h.2
      rw [if_neg hid, hkeep]
      simp only [votersWho, countP_cons] at hrest ⊢
      omega

theorem votersWho_le_put (q : Octets → Bool) (vote : Bool) (id address : Octets) :
    votersWho q servers ≤ votersWho q (put vote id address servers) := by
  induction servers with
  | nil => exact Nat.zero_le _
  | cons head tail ih =>
    rw [put]
    by_cases hid : head.id = id
    · cases hvoter : head.voter
      · simp [votersWho, countP_cons, hid, hvoter]
      · simp [votersWho, countP_cons, hid, hvoter]
    · simp only [votersWho, if_neg hid, countP_cons] at ih ⊢
      exact Nat.add_le_add_right ih _

theorem votersWho_put_of_not {q : Octets → Bool} (hq : (vote && q id) = false) (address : Octets) :
    votersWho q (put vote id address servers) = votersWho q servers := by
  induction servers with
  | nil => simp [put, votersWho, hq]
  | cons head tail ih =>
    rw [put]
    by_cases hid : head.id = id
    · simp only [votersWho, countP_cons, hid, if_true, Bool.and_or_distrib_right, hq,
        Bool.or_false]
    · simp only [votersWho, if_neg hid, countP_cons] at ih ⊢
      rw [ih]

end Put

namespace Configuration

def land (c : Configuration) (ch : Change) : Configuration :=
  match ch with
  | .addVoter id address =>
    ⟨put true id address c.servers, put_nodup c.ids_nodup, put_some_voter c.some_voter⟩
  | .addNonvoter id address =>
    ⟨put false id address c.servers, put_nodup c.ids_nodup, put_some_voter c.some_voter⟩
  | .removeServer id =>
    if h : (othersThan id c.servers).any Server.voter = true then
      ⟨othersThan id c.servers, c.ids_nodup.sublist (filter_sublist.map Server.id), h⟩
    else c

def WitnessesFew (c : Configuration) : Prop :=
  2 * votersWho isWitness c.servers < votersWho (fun _ => true) c.servers

instance (c : Configuration) : Decidable c.WitnessesFew :=
  inferInstanceAs (Decidable (_ < _))

/-- The check of a change against a configuration: a change that adds no vote and
takes none away has nothing to check. -/
def keeps (c : Configuration) : Change → Bool
  | .addVoter id _ => c.keepsWitnessesFew id true
  | .addNonvoter _ _ => true
  | .removeServer id => c.keepsWitnessesFew id false

variable {c : Configuration} {ch : Change}

theorem votersWho_pos {servers : List Server} :
    0 < votersWho (fun _ => true) servers ↔ servers.any Server.voter = true := by
  rw [votersWho, countP_pos_iff, any_eq_true]
  simp only [Bool.and_true]

theorem few_iff {voters witnesses : Nat} (hvoters : 0 < voters) :
    2 * witnesses < voters ↔
      (!(decide (0 < witnesses) && decide (voters ≤ 2 * witnesses))) = true := by
  rw [not_eq_true', and_eq_false_iff, decide_eq_false_iff_not, decide_eq_false_iff_not]
  omega

theorem land_few_iff (h : c.WitnessesFew) : (c.land ch).WitnessesFew ↔ c.keeps ch = true := by
  cases ch with
  | addVoter id address =>
    have hvoters := votersWho_put_true (fun _ => true) id address c.ids_nodup
    have hwitnesses := votersWho_put_true isWitness id address c.ids_nodup
    rw [WitnessesFew, land, keeps, keepsWitnessesFew]
    simp only [hvoters, hwitnesses, Bool.true_and, if_true]
    exact few_iff (Nat.succ_pos _)
  | addNonvoter id address =>
    rw [WitnessesFew, land, votersWho_put_of_not rfl, votersWho_put_of_not rfl]
    exact iff_of_true h rfl
  | removeServer id =>
    rw [land, keeps, keepsWitnessesFew]
    simp only [Bool.false_eq_true, if_false, Bool.false_and, Nat.add_zero]
    by_cases hleft : (othersThan id c.servers).any Server.voter = true
    · rw [dif_pos hleft]
      exact few_iff (votersWho_pos.mpr hleft)
    · -- with no voter left there is no witness left to count, and Raft refuses
      have hnone : votersWho isWitness (othersThan id c.servers) = 0 := by
        rw [votersWho, countP_eq_zero]
        intro srv hsrv hboth
        rw [and_eq_true] at hboth
        exact hleft (any_eq_true.mpr ⟨srv, hsrv, hboth.1⟩)
      rw [dif_neg hleft, hnone]
      exact iff_of_true h rfl

theorem keeps_other_voter (h : c.WitnessesFew) {id : Octets} (hid : isWitness id = false)
    (address : Octets) : c.keeps (.addVoter id address) = true := by
  refine (land_few_iff h).mp ?_
  rw [WitnessesFew, land, votersWho_put_of_not (by simp [hid])]
  exact Nat.lt_of_lt_of_le h (votersWho_le_put _ true id address)

end Configuration

/-- What the leader is asked for. -/
inductive Request where
  | join (req : JoinRequest)
  | remove (id : Octets)
deriving DecidableEq

/-- The change a request comes to.  A voter or a witness is added without a vote first. -/
def Request.change : Request → Change
  | .join req =>
    if req.role = .nonvoter ∨ req.holdsLog = false then .addNonvoter req.id req.address
    else .addVoter req.id req.address
  | .remove id => .removeServer id

/-- How far a request has got: `Node.Remove` reads the configuration twice, once for
the last voter and once for the witnesses. -/
inductive Progress where
  | asked
  | counted
  | checked
  | answered
deriving DecidableEq

/-- Raft's configuration, and how far each request has got. -/
structure Leader where
  config : Configuration
  progress : Nat → Progress

/-- One request goes on, or is given up: the leader left, or stopped leading. -/
inductive Move where
  | goOn (i : Nat)
  | giveUp (i : Nat)
deriving DecidableEq

/-- The checks of `Node.admit` and `Node.Remove` up to where the change is handed to Raft. -/
def Request.check (c : Configuration) : Request → Progress → Progress
  | .join req, .asked =>
    if req.check && (req.role != .witness || c.keepsWitnessesFew req.id true) then .checked
    else .answered
  | .remove id, .asked =>
    match c.servers.find? fun srv => srv.id == id with
    | none => .answered
    | some srv =>
      if srv.voter && votersWho (fun _ => true) c.servers == 1 then .answered else .counted
  | .remove id, .counted => if c.keepsWitnessesFew id false then .checked else .answered
  | _, p => p

theorem Request.keeps_of_check {r : Request} {c : Configuration} {p : Progress}
    (h : c.WitnessesFew) (hchecked : r.check c p = .checked) (hp : p ≠ .checked) :
    c.keeps r.change = true := by
  rw [Request.check.eq_def] at hchecked
  split at hchecked
  · next req =>
    split at hchecked
    · next hpass =>
      rw [and_eq_true, or_eq_true, bne_iff_ne] at hpass
      rw [Request.change]
      split
      · rfl
      · rcases hpass.2 with hrole | hkeeps
        · -- no witness: only a witness goes by the name of one
          refine Configuration.keeps_other_voter h ?_ req.address
          have hid := hpass.1
          rw [JoinRequest.check, and_eq_true, and_eq_true, beq_iff_eq] at hid
          rw [hid.1.2, beq_eq_false_iff_ne]
          exact hrole
        · exact hkeeps
    · cases hchecked
  · split at hchecked
    · cases hchecked
    · split at hchecked <;> cases hchecked
  · split at hchecked
    · next hkeeps => exact hkeeps
    · cases hchecked
  · exact absurd hchecked hp

namespace Sample

def fourVoters : Configuration where
  servers := [⟨ascii "a", ascii "a:1", true⟩, ⟨ascii "b", ascii "b:1", true⟩,
    ⟨ascii "c", ascii "c:1", true⟩, ⟨ascii "witness-1", ascii "w:1", true⟩]
  ids_nodup := by decide
  some_voter := by decide

def twoRemovals (i : Nat) : Request := .remove (if i = 0 then ascii "b" else ascii "c")

def inTurn : List Move := [.goOn 0, .goOn 0, .goOn 0, .goOn 1, .goOn 1, .goOn 1]

def sideBySide : List Move := [.goOn 0, .goOn 1, .goOn 0, .goOn 1, .goOn 0, .goOn 1]

end Sample

open Cluster.Sample

namespace Leader

variable (requests : Nat → Request)

def step (l : Leader) : Move → Leader
  | .goOn i =>
    if l.progress i = .checked then
      { config := l.config.land (requests i).change
        progress := Function.update l.progress i .answered }
    else
      { l with
        progress := Function.update l.progress i ((requests i).check l.config (l.progress i)) }
  | .giveUp i => { l with progress := Function.update l.progress i .answered }

def run (l : Leader) (moves : List Move) : Leader := moves.foldl (step requests) l

def fresh (c : Configuration) : Leader := ⟨c, fun _ => .asked⟩

/-- A move that hands the change of a request to Raft. -/
def Lands (l : Leader) : Move → Prop
  | .goOn i => l.progress i = .checked
  | .giveUp _ => False

instance {l : Leader} : DecidablePred l.Lands
  | .goOn i => inferInstanceAs (Decidable (l.progress i = .checked))
  | .giveUp _ => .isFalse id

/-- No change lands while another request is between its check and its own landing. -/
def Undisturbed (l : Leader) (moves : List Move) : Prop :=
  ∀ n (hn : n < moves.length) k (hk : k < n),
    (l.run requests (moves.take n)).Lands moves[n] →
      (l.run requests (moves.take k)).Lands moves[k] →
        ¬ (l.run requests (moves.take k)).Lands moves[n]

instance {l : Leader} {moves : List Move} : Decidable (l.Undisturbed requests moves) :=
  inferInstanceAs (Decidable (∀ n (_ : n < moves.length) k (_ : k < n), _ → _ → ¬ _))

/-- The change of a move passes its check. -/
def Passes (c : Configuration) : Move → Prop
  | .goOn i => c.keeps (requests i).change = true
  | .giveUp _ => True

variable {requests} {l : Leader} {move : Move}

theorem step_config (h : ¬ l.Lands move) : (l.step requests move).config = l.config := by
  cases move with
  | giveUp i => rfl
  | goOn i =>
    have hnot : l.progress i ≠ .checked := h
    rw [step, if_neg hnot]

theorem step_few (h : l.config.WitnessesFew) (hpasses : l.Lands move → Passes requests l.config move) :
    (l.step requests move).config.WitnessesFew := by
  by_cases hlands : l.Lands move
  · cases move with
    | giveUp i => cases hlands
    | goOn i =>
      have hchecked : l.progress i = .checked := hlands
      rw [step, if_pos hchecked]
      exact (Configuration.land_few_iff h).mpr (hpasses hlands)
  · rwa [step_config hlands]

/-- A request gets past its check on the configuration the check reads, and nothing lands then. -/
theorem step_checked {other : Move} (h : l.config.WitnessesFew)
    (hafter : (l.step requests move).Lands other) (hbefore : ¬ l.Lands other) :
    ¬ l.Lands move ∧ Passes requests l.config other := by
  cases other with
  | giveUp j => cases hafter
  | goOn j =>
    have hnot : l.progress j ≠ .checked := hbefore
    have hchecked : (l.step requests move).progress j = .checked := hafter
    cases move with
    | giveUp i =>
      by_cases hj : j = i
      · simp [step, hj] at hchecked
      · simp [step, hj, hnot] at hchecked
    | goOn i =>
      by_cases hi : l.progress i = .checked
      · by_cases hj : j = i
        · simp [step, hi, hj] at hchecked
        · simp [step, hi, hj, hnot] at hchecked
      · by_cases hj : j = i
        · simp only [step, hi, if_false, hj, Function.update_self] at hchecked
          rw [hj] at hnot ⊢
          exact ⟨hi, Request.keeps_of_check h hchecked hnot⟩
        · simp [step, hi, hj, hnot] at hchecked

theorem run_take_succ {moves : List Move} {n : Nat} (hn : n < moves.length) :
    l.run requests (moves.take (n + 1)) = (l.run requests (moves.take n)).step requests moves[n] := by
  rw [run, run, take_succ_eq_append_getElem hn, foldl_append]
  rfl

/-- Whatever the requests and however they are interleaved: where no change lands while another
request is between its check and its own landing, the witnesses are few in every configuration. -/
theorem witnesses_stay_few (requests : Nat → Request) (start : Configuration)
    (hstart : start.WitnessesFew) (moves : List Move)
    (halone : (fresh start).Undisturbed requests moves) :
    ∀ n ≤ moves.length, ((fresh start).run requests (moves.take n)).config.WitnessesFew := by
  -- a request that is past its check and will land still passes it
  suffices hall : ∀ n ≤ moves.length,
      ((fresh start).run requests (moves.take n)).config.WitnessesFew ∧
        ∀ m (hm : m < moves.length), n ≤ m →
          ((fresh start).run requests (moves.take m)).Lands moves[m] →
          ((fresh start).run requests (moves.take n)).Lands moves[m] →
            Passes requests ((fresh start).run requests (moves.take n)).config moves[m] from
    fun n hn => (hall n hn).1
  intro n
  induction n with
  | zero =>
    refine fun _ => ⟨hstart, fun m hm _ _ hlands => ?_⟩
    cases hmove : moves[m] with
    | giveUp i => trivial
    | goOn i =>
      rw [hmove] at hlands
      cases hlands
  | succ n ih =>
    intro hn
    obtain ⟨hfew, hpasses⟩ := ih (Nat.le_of_succ_le hn)
    rw [run_take_succ hn]
    refine ⟨step_few hfew fun hlands => hpasses n hn le_rfl hlands hlands, ?_⟩
    intro m hm hle hlater hafter
    by_cases hbefore : ((fresh start).run requests (moves.take n)).Lands moves[m]
    · have hquiet : ¬ ((fresh start).run requests (moves.take n)).Lands moves[n] :=
        fun hlands => halone m hm n hle hlater hlands hbefore
      rw [step_config hquiet]
      exact hpasses m hm (Nat.le_of_succ_le hle) hlater hbefore
    · obtain ⟨hquiet, hchecked⟩ := step_checked hfew hafter hbefore
      rwa [step_config hquiet]

theorem witnesses_stay_few_in_turn :
    ((fresh fourVoters).run twoRemovals inTurn).config.servers.length = 3 ∧
      ((fresh fourVoters).run twoRemovals inTurn).config.WitnessesFew :=
  ⟨by decide, witnesses_stay_few twoRemovals fourVoters (by decide) inTurn
    (by decide) inTurn.length le_rfl⟩

/-- Two removals that each pass, and leave one node and the witness. -/
theorem witnesses_reach_half :
    fourVoters.WitnessesFew ∧
      ((fresh fourVoters).run twoRemovals sideBySide).config.servers =
        [⟨ascii "a", ascii "a:1", true⟩, ⟨ascii "witness-1", ascii "w:1", true⟩] ∧
      ¬ ((fresh fourVoters).run twoRemovals
        sideBySide).config.WitnessesFew := by
  decide

end Leader

end Wegweiser.Cluster
