import Demars.P2P.Key

/-!
# Discovery

`p2p/kademlia`: the buckets of the node table, and the loop that hands out replies.
-/

namespace Demars.P2P.Kademlia

open List

/-! ## Distances -/

/-- The leading zeros of the bytes. -/
def lzcount : List Nat :=
  [8, 7] ++ replicate 2 6 ++ replicate 4 5 ++ replicate 8 4 ++ replicate 16 3 ++ replicate 32 2 ++ replicate 64 1 ++
    replicate 128 0

/-- The loop of `logdist`. -/
def leadingZeros : Bytes → Bytes → Nat
  | a :: as, b :: bs => if a ^^^ b = 0 then 8 + leadingZeros as bs else lzcount.getD (a ^^^ b).toNat 0
  | _, _ => 0

def logdist (a b : NodeID) : Nat := a.ID.length * 8 - leadingZeros a.ID b.ID

/-- The bits of a `common.Hash`. -/
def hashBits : Nat := 32 * 8

def nBuckets : Nat := hashBits / 15

def bucketMinDistance : Nat := hashBits - nBuckets

/-- The index of the bucket that `Table.bucket` returns. -/
def bucket (self id : NodeID) : Nat :=
  let d := logdist self id
  if d ≤ bucketMinDistance then 0
  else if nBuckets - 1 < d - bucketMinDistance - 1 then nBuckets - 1
  else d - bucketMinDistance - 1

/-- Buckets tell distances of 256 bits apart, and ids have 512: of two nodes at different distances the farther one is
in a later bucket exactly if the nearer one is within 256 bits and the other beyond the first bucket. -/
theorem bucket_ne_iff (self a b : NodeID) : logdist self a < logdist self b → bucket self a ≤ bucket self b ∧
    (bucket self a ≠ bucket self b ↔ logdist self a < hashBits ∧ bucketMinDistance + 1 < logdist self b) := by
  intro hlt
  have hbits : hashBits = 256 ∧ nBuckets = 17 ∧ bucketMinDistance = 239 := by decide
  simp only [bucket, hbits]
  split_ifs <;> omega

theorem bucket_ne_near : bucket .zero ⟨replicate 32 0 ++ 64 :: replicate 31 0, rfl⟩ ≠
    bucket .zero ⟨replicate 32 0 ++ 128 :: replicate 31 0, rfl⟩ :=
  ((bucket_ne_iff .zero _ _ (by decide)).2).2 (by decide)

/-- The two largest distances. -/
theorem far_buckets_equal : logdist .zero (nodeOf 64) = 511 ∧ logdist .zero (nodeOf 128) = 512 ∧
    bucket .zero (nodeOf 64) = bucket .zero (nodeOf 128) := by decide

/-! ## Replies -/

/-- A `*pending`: matchers for the same replies are told apart by their addresses. -/
structure Pending where
  addr : Nat
  «from» : NodeID
  ptype : UInt8
  deadline : Int
deriving DecidableEq

/-- A loop over `plist`: the elements it comes to, and the list afterwards. It ends after a `Remove`, which clears the
next pointer. -/
def walk (removes : Pending → Bool) : List Pending → List Pending × List Pending
  | [] => ([], [])
  | p :: plist =>
    if removes p then ([p], plist)
    else (p :: (walk removes plist).1, p :: (walk removes plist).2)

def Pending.expects (sender : NodeID) (ptype : UInt8) (p : Pending) : Bool := p.from = sender && p.ptype = ptype

/-- A reply in the loop: the matchers whose callback is called, and the list afterwards. `done` is what the callbacks
return. -/
def gotReply (sender : NodeID) (ptype : UInt8) (done : Pending → Bool) (plist : List Pending) :
    List Pending × List Pending :=
  let walked := walk (fun p => p.expects sender ptype && done p) plist
  (walked.1.filter (Pending.expects sender ptype), walked.2)

def Pending.late (now : Int) (p : Pending) : Bool := p.deadline ≤ now

/-- A timeout in the loop: the matchers that are notified, and the list afterwards. -/
def onTimeout (now : Int) (plist : List Pending) : List Pending × List Pending :=
  let walked := walk (Pending.late now) plist
  (walked.1.filter (Pending.late now), walked.2)

variable {hit removes : Pending → Bool} {plist : List Pending}

theorem filter_walk_iff (hhit : ∀ p, removes p → hit p) : (walk removes plist).1.filter hit = plist.filter hit ↔
    plist.Pairwise fun p q => removes p → hit q = false := by
  induction plist with
  | nil => simp [walk]
  | cons p plist ih =>
    rw [walk, pairwise_cons]
    by_cases hp : removes p = true
    · simp only [if_pos hp, filter_cons_of_pos (hhit p hp), filter_nil, cons.injEq, true_and, eq_comm (a := []),
        filter_eq_nil_iff]
      constructor
      · intro h
        exact ⟨fun q hq _ => by simpa using h q hq, pairwise_of_forall_mem_list fun _ _ q hq _ => by simpa using h q hq⟩
      · exact fun h q hq => by simpa using h.1 q hq hp
    · simp only [if_neg hp, filter_cons]
      split_ifs <;> simpa [hp] using ih

theorem walk_snd (h : plist.Pairwise fun p q => removes p → removes q = false) :
    (walk removes plist).2 = plist.filter (!removes ·) := by
  induction plist with
  | nil => rfl
  | cons p plist ih =>
    obtain ⟨hp, h⟩ := pairwise_cons.1 h
    rw [walk]
    split_ifs with hrem
    · rw [filter_cons_of_neg (by simpa using hrem)]
      exact (filter_eq_self.2 fun q hq => by simp [hp q hq hrem]).symm
    · rw [filter_cons_of_pos (by simpa using hrem), ih h]

/-- The loops end with the first matcher that they remove: a reply reaches every callback that expects it, and a
timeout all that are late, exactly where no other such matcher comes after that one. -/
theorem dispatch_iff (sender : NodeID) (ptype : UInt8) (done : Pending → Bool) (now : Int) (plist : List Pending) :
    ((gotReply sender ptype done plist).1 = plist.filter (Pending.expects sender ptype) ↔
      plist.Pairwise fun p q => p.expects sender ptype && done p → q.expects sender ptype = false) ∧
    (onTimeout now plist = (plist.filter (Pending.late now), plist.filter (!Pending.late now ·)) ↔
      plist.Pairwise fun p q => p.late now → q.late now = false) := by
  refine ⟨filter_walk_iff fun p hp => (Bool.and_eq_true_iff.1 hp).1, fun h => ?_, fun h => ?_⟩
  · exact (filter_walk_iff fun _ hp => hp).1 (Prod.ext_iff.1 h).1
  · exact Prod.ext ((filter_walk_iff fun _ hp => hp).2 h) (walk_snd h)

/-- Of two matchers for one node the first is done with the reply, and the second is not called; of two late ones the
second stays. -/
theorem second_matcher_skipped :
    gotReply .zero 4 (fun _ => true) [⟨0, .zero, 4, 1⟩, ⟨1, .zero, 4, 1⟩] = ([⟨0, .zero, 4, 1⟩], [⟨1, .zero, 4, 1⟩]) ∧
    onTimeout 3 [⟨0, .zero, 4, 1⟩, ⟨1, .zero, 4, 2⟩] = ([⟨0, .zero, 4, 1⟩], [⟨1, .zero, 4, 2⟩]) := by decide

end Demars.P2P.Kademlia
