import MumbleBot.Framing
import MumbleBot.Slots
import MumbleBot.SegmentLists
import MumbleBot.Routing
import MumbleBot.Say
import MumbleBot.Authentic
import MumbleBot.Connection
import MumbleBot.Conversation
import MumbleBot.ReactorState
