import Metor.Impl.MsgLog
import Metor.Impl.WaitQueue

/-!
# Streams of messages (`handle_msg_stream` in `libs/db/src/lib.rs`)

A subscriber waits on the log's `data_waker`, reads the latest message and
sends it. A push commits its record to the WAL and then wakes `data_waker`;
the persist task moves the record to the log. These are the steps of the tasks
on one log.
-/

namespace Metor.Impl.MsgStream

open Metor.Lib Metor.Impl.Msg

/-- Where a subscriber is in its loop. -/
inductive Pc
  | top
  | wait (waiter : Waiter)
  | sending (msgRef : MsgRef)
  deriving DecidableEq, Repr

structure Subscriber where
  pc : Pc
  sent : List Bytes
  /-- It was waiting when the last message was committed. -/
  waited : Bool
  deriving DecidableEq, Repr

structure State where
  log : Msg.State
  /-- How many times `data_waker` was woken. -/
  wakeAlls : Nat
  /-- The pushes that have committed and not called `wake_all` yet. -/
  waking : Nat
  subscribers : List Subscriber
  /-- The messages committed so far. -/
  pushed : List Bytes
  deriving DecidableEq, Repr

/-- The steps of a subscriber. -/
inductive SubscriberAct
  | wait
  | poll
  | read
  | send
  deriving DecidableEq, Repr

inductive Act
  | push (timestamp : Int) (msg : Bytes)
  /-- The last step of a push. -/
  | wake
  | persist (n : Nat)
  | subscribe
  | subscriber (i : Nat) (a : SubscriberAct)
  /-- A send fails, which ends the subscriber. -/
  | hangUp (i : Nat)
  deriving DecidableEq, Repr

def new : State := ⟨Msg.new, 0, 0, [], []⟩

/-- A step of the loop of `handle_msg_stream`. -/
def Subscriber.step (s : State) (sub : Subscriber) : SubscriberAct → Option Subscriber
  | .wait => if sub.pc = .top then some { sub with pc := .wait (.start s.wakeAlls) } else none
  | .poll =>
    match sub.pc with
    | .wait (.start n) => some { sub with pc := .wait (Waiter.poll s.wakeAlls (.start n)) }
    | _ => none
  | .read =>
    if sub.pc = .wait .woken then
      match s.log.list.latest with
      | none => some { sub with pc := .top }
      | some msgRef => some { sub with pc := .sending msgRef }
    else none
  | .send =>
    match sub.pc with
    | .sending msgRef =>
      match msgRef.data with
      | none => some { sub with pc := .top }
      | some msg => some { sub with pc := .top, sent := sub.sent ++ [msg] }
    | _ => none

/-- A subscriber that `wake_all` finds waiting is woken. -/
def Subscriber.wakeAll (sub : Subscriber) : Subscriber :=
  match sub.pc with
  | .wait w => { sub with pc := .wait w.wakeAll }
  | _ => sub

def step (s : State) : Act → Option State
  | .push timestamp msg => (Msg.step s.log (.push timestamp msg)).map fun log =>
    { s with
      log := log
      waking := s.waking + 1
      subscribers := s.subscribers.map fun sub => { sub with waited := sub.pc = .wait .waiting }
      pushed := s.pushed ++ [msg] }
  | .wake =>
    if 0 < s.waking then
      some { s with
        waking := s.waking - 1
        wakeAlls := s.wakeAlls + 1
        subscribers := s.subscribers.map Subscriber.wakeAll }
    else none
  | .persist n => (Msg.step s.log (.persist n)).map fun log => { s with log := log }
  | .subscribe => some { s with subscribers := s.subscribers ++ [⟨.top, [], false⟩] }
  | .subscriber i a => s.subscribers[i]?.bind fun sub => (sub.step s a).map fun sub' =>
    { s with subscribers := s.subscribers.set i sub' }
  | .hangUp i => s.subscribers[i]?.bind fun sub =>
    match sub.pc with
    | .sending _ => some { s with subscribers := s.subscribers.eraseIdx i }
    | _ => none

end Metor.Impl.MsgStream
