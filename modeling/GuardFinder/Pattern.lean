/-!
# Patterns

The ways of restricting access that are looked for, with the name, the title and the description
under which a report lists them.
-/

namespace GuardFinder

/-- A way of restricting access to a function. -/
inductive Pattern
  | ownership
  | hashLock
  | roles
  | multipleAuthorization
  | xConfirmation
  | offChainSecret
  | singleOwner
  deriving DecidableEq, Repr

namespace Pattern

/-- All patterns, in the order of a report. -/
def all : List Pattern :=
  [ownership, hashLock, roles, multipleAuthorization, xConfirmation, offChainSecret, singleOwner]

/-- The name that a pattern is chosen by. -/
def name : Pattern → String
  | ownership => "OWNERSHIP"
  | hashLock => "HASH_LOCK"
  | roles => "ROLES"
  | multipleAuthorization => "MULTIPLE_AUTHORIZATION"
  | xConfirmation => "X_CONFIRMATION"
  | offChainSecret => "OFF_CHAIN_SECRET"
  | singleOwner => "SINGLE_OWNER"

/-- The pattern with a given name. -/
def ofName? (name : String) : Option Pattern := all.find? (·.name = name)

/-- The title of a pattern in a report. -/
def title : Pattern → String
  | ownership => "Ownership"
  | hashLock => "Hash Lock (Off-Chain Secret Enabled Authentication)"
  | roles => "Role Based Access Control"
  | multipleAuthorization => "Multiple Authorization"
  | xConfirmation => "X-Confirmation (Block Count)"
  | offChainSecret => "Off-Chain Secret Enabled Authentication"
  | singleOwner => "Single Owner"

/-- The description of a pattern in a report. -/
def description : Pattern → String
  | ownership =>
    "This pattern aims at restricting functions to specific addresses. For example " ++
      "the owner of the contract is specified in the constructor and only that account " ++
      "is allowed to access a function and change the contract's state."
  | hashLock | offChainSecret =>
    "This pattern aims at providing authentication when the account is not known in advance. " ++
      "A secret is fixed off-chain and hashed, and the hash gets submitted to the contract. " ++
      "Later, the holder of the secret can submit it to the contract, the contract checks " ++
      "the secret's hash against the stored one, and if they match the protected logic gets " ++
      "executed."
  | roles =>
    "This pattern restricts functions to accounts that were granted a specific role. " ++
      "Role memberships are kept in a mapping keyed by the role identifier and the account, " ++
      "and a function only proceeds when the caller holds the required role."
  | multipleAuthorization =>
    "This pattern requires several accounts to approve an action before it is executed. " ++
      "Approvals are counted in contract storage and the protected logic only runs once " ++
      "the stored count reaches a stored threshold."
  | xConfirmation =>
    "This pattern protects functions from being executed unless a condition related to the " ++
      "current block number is met. For example one might want to wait for a certain number " ++
      "of blocks to have passed before a transaction is marked as valid or confirmed."
  | singleOwner =>
    "A single account whose address is kept in contract storage is allowed to access " ++
      "a function. The comparison between the caller and the stored account is proven " ++
      "by the constraint solver rather than inferred from taints."

end Pattern

end GuardFinder
