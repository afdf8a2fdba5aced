import Stigmergy.Binary64.Arithmetic
import Stigmergy.Colony.Capacity
import Stigmergy.Decimal.Positional
import Stigmergy.Graph
import Stigmergy.Proofs.Colony.Band
import Stigmergy.Proofs.Colony.Prefix
import Stigmergy.Proofs.Colony.Selection
import Stigmergy.Proofs.Tour.Outcome
import Stigmergy.Proofs.Walk.Path
import Stigmergy.Random.Script
import Stigmergy.Settings.Document
import Stigmergy.Tour.Shortest
import Stigmergy.Tour.Problem
import Stigmergy.Proofs.Tour.RoundTrip
import Stigmergy.Proofs.Colony.Reuse
import Stigmergy.Proofs.Colony.Reports
import Stigmergy.Proofs.Colony.Nonnegative
import Stigmergy.Proofs.Colony.Parallel
import Stigmergy.Proofs.Deposit.Edges
import Stigmergy.Proofs.Colony.Story
import Stigmergy.Proofs.Deposit.Depositors
import Stigmergy.Proofs.Colony.Stored
import Stigmergy.Proofs.Tour.Length
import Stigmergy.Proofs.Tour.Shortest
import Stigmergy.Proofs.Colony.Optimum
import Stigmergy.Proofs.Colony.Draws
import Stigmergy.Proofs.Deposit.Amounts
import Stigmergy.Proofs.Deposit.Ranks
import Stigmergy.Proofs.Binary64.Shares
import Stigmergy.Proofs.Walk.Odds
import Stigmergy.Proofs.Deposit.Confined
import Stigmergy.Proofs.Walk.Choices
import Stigmergy.Proofs.Tour.Exact
import Stigmergy.Proofs.Pheromone.Replay
import Stigmergy.Proofs.Colony.Lengths
import Stigmergy.Proofs.Pheromone.Stagnation
import Stigmergy.Proofs.Deposit.Stagnation
import Stigmergy.Proofs.Binary64.Products
import Stigmergy.Proofs.Colony.Ascent
import Stigmergy.Proofs.Walk.Desirability
import Stigmergy.Proofs.Walk.Proportion
import Stigmergy.Proofs.Deposit.Orders
import Stigmergy.Proofs.Tour.Pair
